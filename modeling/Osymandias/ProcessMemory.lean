import Osymandias.BinRun
import Osymandias.MemoryMap
import Osymandias.TrapFrame

/-!
# The memory of processes

`process/stack.rs`, the allocations of `process/process.rs` and of
`GlobalScheduler::new_process`, and `initialize` of `allocator/mod.rs`. A
process owns two allocations, the box of its trap frame and its stack. A run
starts at the boot parameters, and takes in processes, the other clients of the
allocator, and whatever anyone writes into memory of their own.
-/

namespace Osymandias

open Fuel Tiling

/-! ## The allocator at boot -/

def allocatorInitialize (profile : Profile) (fuel : Nat) (m : Memory) (endAddr : Nat) : Except Fault Allocator := do
  match ← memoryMap profile fuel m endAddr with
  | none => .error (.panic "failed to find memory map")
  | some (start, «end») => Allocator.new fuel start «end» m

def System.alloc (fuel : Nat) (s : System) (layout : Layout) : Except Fault (Except AllocErr Nat × System) := do
  let (r, a) ← s.allocator.alloc fuel layout
  return (r, ⟨a, granted layout r s.live⟩)

def System.mem (s : System) : Memory := s.allocator.mem

/-! ## Stacks -/

def writeBytes (m : Memory) (dst : Nat) (val : UInt8) (count : Nat) : Memory :=
  fun x => if dst ≤ x ∧ x < dst + count then val else m x

namespace Stack

def SIZE : Nat := 1 <<< 20

def ALIGN : Nat := 16

theorem SIZE_le : SIZE ≤ usizeMax - (ALIGN - 1) := by decide

theorem ALIGN_le : ALIGN ≤ usizeMax := by decide

def layout : Layout := ⟨SIZE, ALIGN, ⟨4, rfl⟩, ALIGN_le, SIZE_le⟩

def new (fuel : Nat) (s : System) : Except Fault (Option Nat × System) := do
  match ← s.alloc fuel layout with
  | (.error _, s) => return (none, s)
  | (.ok rawPtr, s) =>
    let s := s.withMem (writeBytes s.mem rawPtr 0 SIZE)
    if rawPtr = 0 then .error (.panic "non-null") else return (some rawPtr, s)

def top (stack : Nat) : Nat := stack + SIZE

end Stack

/-! ## Frames -/

namespace TrapFrame

theorem layout_le : 800 ≤ usizeMax - (Stack.ALIGN - 1) := by decide

def layout : Layout := ⟨800, Stack.ALIGN, ⟨4, rfl⟩, Stack.ALIGN_le, layout_le⟩

def get (tf : TrapFrame) : Field → Nat
  | .elr => tf.elr.toNat
  | .spsr => tf.spsr.toNat
  | .sp => tf.sp.toNat
  | .tpidr => tf.tpidr.toNat
  | .q i => (tf.q i).toNat
  | .x i => (tf.x i).toNat
  | .reserved => tf.reserved.toNat

def place (a : Nat) (f : Field) : Nat := a + (offset f).getD 0

def readField (m : Memory) (a : Nat) (f : Field) : Nat := Bytes.read m (place a f) f.size

def writeField (m : Memory) (a : Nat) (f : Field) (v : Nat) : Memory := Bytes.write m (place a f) f.size v

/-- The frame written out field by field. -/
def store (tf : TrapFrame) (m : Memory) (a : Nat) : Memory :=
  fields.foldl (fun m f => writeField m a f (tf.get f)) m

end TrapFrame

/-! ## Processes -/

/-- Where a process has the box of its frame, and its stack. -/
structure ProcessMemory where
  trapFrame : Nat
  stack : Nat
  deriving DecidableEq

namespace ProcessMemory

def frameLive (p : ProcessMemory) : Live := ⟨p.trapFrame, TrapFrame.layout⟩

def stackLive (p : ProcessMemory) : Live := ⟨p.stack, Stack.layout⟩

def lives (p : ProcessMemory) : List Live := [p.frameLive, p.stackLive]

/-- `Box::new`, whose allocation aborts where it fails. -/
def boxNew (fuel : Nat) (s : System) (tf : TrapFrame) : Except Fault (Nat × System) := do
  match ← s.alloc fuel TrapFrame.layout with
  | (.error _, _) => .error (.panic "abort")
  | (.ok p, s) => return (p, s.withMem (tf.store s.mem p))

def new (fuel : Nat) (s : System) : Except Fault (Option ProcessMemory × System) := do
  match ← Stack.new fuel s with
  | (none, s) => return (none, s)
  | (some stack, s) =>
    let (trapFrame, s) ← boxNew fuel s .zero
    return (some ⟨trapFrame, stack⟩, s)

/-- The fields of a struct are dropped in their order: the box, then the stack. -/
def drop (fuel : Nat) (s : System) (p : ProcessMemory) : Except Fault System := do
  let (_, s) ← s.call fuel (.dealloc p.frameLive)
  let (_, s) ← s.call fuel (.dealloc p.stackLive)
  return s

end ProcessMemory

def newProcess (fuel : Nat) (fnPtr : UInt64) (s : System) : Except Fault (ProcessMemory × System) := do
  match ← ProcessMemory.new fuel s with
  | (none, _) => .error (.panic "first process")
  | (some p, s) =>
    let m := TrapFrame.writeField s.mem p.trapFrame .sp (Stack.top p.stack)
    let m := TrapFrame.writeField m p.trapFrame .elr fnPtr.toNat
    return (p, s.withMem m)

/-- `ProcRun profile m endAddr ps s`: from `ALLOCATOR.initialize` with the boot
parameters in `m` the system has come to `s`, where the processes `ps` exist. -/
inductive ProcRun (profile : Profile) (m : Memory) (endAddr : Nat) : List ProcessMemory → System → Prop where
  | boot {fuel : Nat} {a : Allocator} :
    allocatorInitialize profile fuel m endAddr = .ok a → ProcRun profile m endAddr [] ⟨a, []⟩
  | spawn {fuel : Nat} {fnPtr : UInt64} {ps : List ProcessMemory} {p : ProcessMemory} {s s' : System} :
    ProcRun profile m endAddr ps s → newProcess fuel fnPtr s = .ok (p, s') →
      ProcRun profile m endAddr (ps ++ [p]) s'
  | refused {fuel : Nat} {ps : List ProcessMemory} {s s' : System} :
    ProcRun profile m endAddr ps s → ProcessMemory.new fuel s = .ok (none, s') → ProcRun profile m endAddr ps s'
  | drop {fuel : Nat} {ps qs : List ProcessMemory} {p : ProcessMemory} {s s' : System} :
    ProcRun profile m endAddr (ps ++ p :: qs) s → p.drop fuel s = .ok s' → ProcRun profile m endAddr (ps ++ qs) s'
  | client {fuel : Nat} {ps : List ProcessMemory} {s s' : System} {c : Call} {r : Reply} :
    ProcRun profile m endAddr ps s → c.Allowed s.live → (∀ l ∈ ps.flatMap ProcessMemory.lives, c ≠ .dealloc l) →
      s.call fuel c = .ok (r, s') → ProcRun profile m endAddr ps s'
  | scribble {ps : List ProcessMemory} {s : System} {m' : Memory} :
    ProcRun profile m endAddr ps s → Scribbled s.live s.mem m' → ProcRun profile m endAddr ps (s.withMem m')

/-! ## The layout of a frame -/

namespace TrapFrame

theorem Field.size_pos (f : Field) : 0 < f.size := by cases f <;> exact Nat.zero_lt_succ _

theorem le_offsets : ∀ {fs : List Field} {n : Nat} {p : Field × Nat}, p ∈ offsets n fs → n ≤ p.2
  | f :: fs, n, p, h => by
    have hn : n ≤ (n + f.size - 1) / f.size * f.size := by
      have hmod := Nat.mod_lt (n + f.size - 1) f.size_pos
      have hdiv := Nat.div_add_mod' (n + f.size - 1) f.size
      omega
    rcases List.mem_cons.mp h with rfl | h
    · exact hn
    · have := le_offsets h
      omega

theorem pairwise_offsets : ∀ (fs : List Field) (n : Nat),
    (offsets n fs).Pairwise fun p p' => p.2 + p.1.size ≤ p'.2
  | [], _ => .nil
  | _ :: fs, _ => .cons (fun _ h => le_offsets h) (pairwise_offsets fs _)

theorem mem_fields (f : Field) : f ∈ fields := by
  cases f with
  | q i => revert i; decide
  | x i => revert i; decide
  | _ => decide

theorem offset_mem : ∀ f ∈ fields, ∃ o, offset f = some o ∧ o + f.size ≤ 800 := by decide +kernel

theorem mem_offsets {f : Field} {o : Nat} (h : offset f = some o) : (f, o) ∈ offsets 0 fields := by
  obtain ⟨p, hp, rfl⟩ := Option.map_eq_some_iff.mp h
  have hf : p.1 = f := by simpa using List.find?_some hp
  rw [← hf]
  exact List.mem_of_find?_eq_some hp

theorem offsets_apart {f g : Field} {o o' : Nat} (hne : f ≠ g) (ho : offset f = some o) (ho' : offset g = some o') :
    o + f.size ≤ o' ∨ o' + g.size ≤ o := by
  let Apart : Field × Nat → Field × Nat → Prop := fun p p' => p.2 + p.1.size ≤ p'.2 ∨ p'.2 + p'.1.size ≤ p.2
  have hpair : (offsets 0 fields).Pairwise Apart := (pairwise_offsets fields 0).imp .inl
  have : Std.Symm Apart := ⟨fun _ _ => Or.symm⟩
  exact hpair.forall (mem_offsets ho) (mem_offsets ho') fun e => hne (Prod.mk.inj e).1

section
variable {f g : Field} (m : Memory) (a v : Nat)

theorem place_spec (f : Field) : ∃ o, offset f = some o ∧ place a f = a + o ∧ o + f.size ≤ 800 := by
  obtain ⟨o, ho, hle⟩ := offset_mem f (mem_fields f)
  exact ⟨o, ho, by rw [place, ho, Option.getD_some], hle⟩

theorem readField_self : readField (writeField m a f v) a f = v % 256 ^ f.size :=
  Bytes.read_write_self m f.size _ v (Bytes.nodup_cells _ _)

theorem readField_of_ne (hne : f ≠ g) : readField (writeField m a g v) a f = readField m a f := by
  obtain ⟨o, ho, hp, -⟩ := place_spec a f
  obtain ⟨o', ho', hp', -⟩ := place_spec a g
  apply Bytes.read_write_of_disjoint
  intro c hc hc'
  rw [Bytes.mem_cells] at hc hc'
  have := offsets_apart hne ho ho'
  omega

/-- A field is written inside the frame. -/
theorem writeField_outside {x : Nat} (hx : ¬ (a ≤ x ∧ x < a + 800)) : writeField m a f v x = m x := by
  obtain ⟨o, -, hp, hle⟩ := place_spec a f
  apply Bytes.write_of_not_mem
  intro hc
  rw [Bytes.mem_cells] at hc
  omega

theorem get_lt (tf : TrapFrame) (f : Field) : tf.get f < 256 ^ f.size := by
  cases f with
  | q i => exact (tf.q i).isLt
  | x i => exact (tf.x i).toNat_lt
  | elr => exact tf.elr.toNat_lt
  | spsr => exact tf.spsr.toNat_lt
  | sp => exact tf.sp.toNat_lt
  | tpidr => exact tf.tpidr.toNat_lt
  | reserved => exact tf.reserved.toNat_lt

theorem readField_foldl (tf : TrapFrame) : ∀ (fs : List Field) (m : Memory),
    (f ∈ fs ∨ readField m a f = tf.get f) →
    readField (fs.foldl (fun m f => writeField m a f (tf.get f)) m) a f = tf.get f
  | [], _, h => h.resolve_left (by simp)
  | g :: fs, m, h => by
    rw [List.foldl_cons]
    apply readField_foldl tf fs
    by_cases hfg : f = g
    · subst hfg
      rw [readField_self, Nat.mod_eq_of_lt (tf.get_lt f)]
      exact .inr rfl
    · rw [readField_of_ne m a _ hfg]
      exact h.imp_left fun hmem => (List.mem_cons.mp hmem).resolve_left hfg

theorem readField_store (tf : TrapFrame) (f : Field) : readField (tf.store m a) a f = tf.get f :=
  readField_foldl a tf fields m (.inl (mem_fields f))

theorem store_outside (tf : TrapFrame) {x : Nat} (hx : ¬ (a ≤ x ∧ x < a + 800)) : tf.store m a x = m x := by
  unfold store
  induction fields generalizing m with
  | nil => rfl
  | cons f fs ih =>
    rw [List.foldl_cons, ih]
    exact writeField_outside m a _ hx

end

end TrapFrame

/-! ## Memory in a run -/

@[simp] theorem System.withMem_live (s : System) (m : Memory) : (s.withMem m).live = s.live := rfl

@[simp] theorem System.withMem_mem (s : System) (m : Memory) : (s.withMem m).mem = m := rfl

/-- Nobody who has memory in `s` sees a difference. -/
def Undisturbed (s s' : System) : Prop := ∀ l ∈ s.live, ∀ x, l.Requested x → s'.mem x = s.mem x

theorem Undisturbed.trans {s s₁ s₂ : System} (h₁ : Undisturbed s s₁) (h₂ : Undisturbed s₁ s₂)
    (hlive : ∀ l ∈ s.live, l ∈ s₁.live) : Undisturbed s s₂ :=
  fun l hl x hx => (h₂ l (hlive l hl) x hx).trans (h₁ l hl x hx)

section
variable {start «end» fuel : Nat} {h : List (Call × Reply)} {s s' : System} {layout : Layout}

theorem Run.live_inj (hrun : Run start «end» h s) {l l' : Live} (hl : l ∈ s.live) (hl' : l' ∈ s.live) {x : Nat}
    (hx : l.Requested x) (hx' : l'.Requested x) : l = l' := by
  obtain ⟨lo, hi, P, hm⟩ := hrun.models
  rw [hm.live_eq] at hl hl'
  exact P.live_inj hl hl' ((P.placed l hl).has hx) ((P.placed l' hl').has hx')

theorem Run.live_nodup (hrun : Run start «end» h s) : s.live.Nodup := by
  obtain ⟨lo, hi, P, hm⟩ := hrun.models
  have hpair := List.pairwise_map.mp (List.pairwise_append.mp (pairwise_apart P.tiles.le_one)).2.1
  rw [hm.live_eq]
  refine hpair.imp_of_mem fun {l l'} hl hl' hapart heq => ?_
  have hpos := (P.placed l hl).fit.size_pos
  exact hapart l.block.addr ⟨⟨le_rfl, by omega⟩, heq ▸ ⟨le_rfl, by omega⟩⟩

theorem Run.client (hrun : Run start «end» h s) {c : Call} {r : Reply} (hc : c.Allowed s.live)
    (hcall : s.call fuel c = .ok (r, s')) :
    ∀ l ∈ s.live, c ≠ .dealloc l → ∀ x, l.Requested x → s'.mem x = s.mem x := by
  intro l hl hne x hx
  obtain ⟨lo, hi, P, hm⟩ := hrun.models
  obtain ⟨-, -, -, -, hu⟩ := (call_models fuel hm hc).of_ok hcall
  rw [hm.live_eq] at hc hl
  exact untouched_live hc hl hne hu x ((P.placed l hl).has hx)

theorem System.call_alloc {r : Except AllocErr Nat} (ha : s.alloc fuel layout = .ok (r, s')) :
    s.call fuel (.alloc layout) = .ok (.alloc r, s') ∧ s'.live = granted layout r s.live := by
  obtain ⟨⟨r₁, a⟩, halloc, ha⟩ := bind_ok ha
  cases ha
  refine ⟨?_, rfl⟩
  rw [System.call, halloc]
  rfl

theorem Run.alloc (hrun : Run start «end» h s) {r : Except AllocErr Nat} (ha : s.alloc fuel layout = .ok (r, s')) :
    (∃ h', Run start «end» h' s') ∧ s'.live = granted layout r s.live ∧ Undisturbed s s' := by
  obtain ⟨hcall, hlive⟩ := System.call_alloc ha
  have hc : (Call.alloc layout).Allowed s.live := trivial
  exact ⟨⟨_, hrun.call hc hcall⟩, hlive, fun l hl => hrun.client hc hcall l hl nofun⟩

/-- The owner of an allocation writes into it. -/
theorem Run.write (hrun : Run start «end» h s) {l : Live} (hl : l ∈ s.live) {m : Memory}
    (hm : ∀ x, ¬ l.Requested x → m x = s.mem x) :
    Run start «end» h (s.withMem m) ∧ ∀ l' ∈ s.live, l' ≠ l → ∀ x, l'.Requested x → m x = s.mem x := by
  refine ⟨hrun.scribble fun x hx => hm x (hx l hl), ?_⟩
  intro l' hl' hne x hx'
  exact hm x fun hx => hne (hrun.live_inj hl' hl hx' hx)

end

/-! ## New processes -/

section
variable {start «end» fuel : Nat} {h : List (Call × Reply)} {s s' : System}

theorem Run.granted_write (hrun : Run start «end» h s) {layout : Layout} {p : Nat}
    (ha : s.alloc fuel layout = .ok (.ok p, s')) {m : Memory}
    (hm : ∀ x, ¬ (p ≤ x ∧ x < p + layout.size) → m x = s'.mem x) :
    (∃ h', Run start «end» h' (s'.withMem m)) ∧ s'.live = ⟨p, layout⟩ :: s.live ∧ Undisturbed s (s'.withMem m) := by
  obtain ⟨⟨h', hrun'⟩, hlive, hsame⟩ := hrun.alloc ha
  have hmem : (⟨p, layout⟩ : Live) ∈ s'.live := by rw [hlive]; exact List.mem_cons_self
  obtain ⟨hrun'', hothers⟩ := hrun'.write hmem hm
  refine ⟨⟨h', hrun''⟩, hlive, ?_⟩
  intro l hl x hx
  have hnodup := hrun'.live_nodup
  rw [hlive, granted, List.nodup_cons] at hnodup
  have hl' : l ∈ s'.live := by rw [hlive]; exact List.mem_cons_of_mem _ hl
  have hne : l ≠ ⟨p, layout⟩ := fun e => hnodup.1 (e ▸ hl)
  exact (hothers l hl' hne x hx).trans (hsame l hl x hx)

theorem Stack.new_some (hrun : Run start «end» h s) {p : Nat} (hnew : Stack.new fuel s = .ok (some p, s')) :
    (∃ h', Run start «end» h' s') ∧ s'.live = ⟨p, Stack.layout⟩ :: s.live ∧ Undisturbed s s' ∧
      ∀ x, (⟨p, Stack.layout⟩ : Live).Requested x → s'.mem x = 0 := by
  obtain ⟨⟨r, s₁⟩, ha, hnew⟩ := bind_ok hnew
  cases r with
  | error e => cases hnew
  | ok q =>
    by_cases hq : q = 0
    · simp only [if_pos hq] at hnew
      cases hnew
    · simp only [if_neg hq] at hnew
      cases hnew
      obtain ⟨hrun', hlive, hsame⟩ := hrun.granted_write ha fun x hx => if_neg hx
      exact ⟨hrun', hlive, hsame, fun x hx => if_pos hx⟩

theorem Stack.new_none (hrun : Run start «end» h s) (hnew : Stack.new fuel s = .ok (none, s')) :
    (∃ h', Run start «end» h' s') ∧ s'.live = s.live ∧ Undisturbed s s' := by
  obtain ⟨⟨r, s₁⟩, ha, hnew⟩ := bind_ok hnew
  cases r with
  | error e =>
    cases hnew
    exact hrun.alloc ha
  | ok q =>
    by_cases hq : q = 0
    · simp only [if_pos hq] at hnew
      cases hnew
    · simp only [if_neg hq] at hnew
      cases hnew

theorem boxNew_ok (hrun : Run start «end» h s) {tf : TrapFrame} {p : Nat}
    (hnew : ProcessMemory.boxNew fuel s tf = .ok (p, s')) :
    (∃ h', Run start «end» h' s') ∧ s'.live = ⟨p, TrapFrame.layout⟩ :: s.live ∧ Undisturbed s s' ∧
      ∀ f, TrapFrame.readField s'.mem p f = tf.get f := by
  obtain ⟨⟨r, s₁⟩, ha, hnew⟩ := bind_ok hnew
  cases r with
  | error e => cases hnew
  | ok q =>
    cases hnew
    obtain ⟨hrun', hlive, hsame⟩ := hrun.granted_write ha fun x hx => TrapFrame.store_outside s₁.mem p tf hx
    exact ⟨hrun', hlive, hsame, TrapFrame.readField_store s₁.mem p tf⟩

theorem ProcessMemory.new_none (hrun : Run start «end» h s) (hnew : ProcessMemory.new fuel s = .ok (none, s')) :
    (∃ h', Run start «end» h' s') ∧ s'.live = s.live ∧ Undisturbed s s' := by
  obtain ⟨⟨r, s₁⟩, hs, hnew⟩ := bind_ok hnew
  cases r with
  | none =>
    cases hnew
    exact Stack.new_none hrun hs
  | some stack =>
    obtain ⟨⟨trapFrame, s₂⟩, -, hnew⟩ := bind_ok hnew
    cases hnew

theorem ProcessMemory.new_some (hrun : Run start «end» h s) {p : ProcessMemory}
    (hnew : ProcessMemory.new fuel s = .ok (some p, s')) :
    (∃ h', Run start «end» h' s') ∧ s'.live = p.frameLive :: p.stackLive :: s.live ∧ Undisturbed s s' ∧
      (∀ x, p.stackLive.Requested x → s'.mem x = 0) ∧
      ∀ f, TrapFrame.readField s'.mem p.trapFrame f = TrapFrame.zero.get f := by
  obtain ⟨⟨r, s₁⟩, hs, hnew⟩ := bind_ok hnew
  cases r with
  | none => cases hnew
  | some stack =>
    obtain ⟨⟨trapFrame, s₂⟩, hbox, hnew⟩ := bind_ok hnew
    cases hnew
    obtain ⟨⟨h₁, hrun₁⟩, hlive₁, hsame₁, hzero⟩ := Stack.new_some hrun hs
    obtain ⟨hrun₂, hlive₂, hsame₂, hframe⟩ := boxNew_ok hrun₁ hbox
    refine ⟨hrun₂, by rw [hlive₂, hlive₁]; rfl, hsame₁.trans hsame₂ ?_, ?_, hframe⟩
    · intro l hl
      rw [hlive₁]
      exact List.mem_cons_of_mem _ hl
    · intro x hx
      rw [hsame₂ _ (by rw [hlive₁]; exact List.mem_cons_self) x hx]
      exact hzero x hx

/-- The frame of a new process: zero, but for the entry point and the top of its stack. -/
def newFrame (p : ProcessMemory) (fnPtr : UInt64) : TrapFrame :=
  { TrapFrame.zero with sp := .ofNat (Stack.top p.stack), elr := fnPtr }

theorem newProcess_spec (hrun : Run start «end» h s) {fnPtr : UInt64} {p : ProcessMemory}
    (hnew : newProcess fuel fnPtr s = .ok (p, s')) :
    (∃ h', Run start «end» h' s') ∧ s'.live = p.frameLive :: p.stackLive :: s.live ∧ Undisturbed s s' ∧
      (∀ x, p.stackLive.Requested x → s'.mem x = 0) ∧
      ∀ f, TrapFrame.readField s'.mem p.trapFrame f = (newFrame p fnPtr).get f := by
  obtain ⟨⟨r, s₁⟩, hs, hnew⟩ := bind_ok hnew
  cases r with
  | none => cases hnew
  | some q =>
    cases hnew
    obtain ⟨⟨h₁, hrun₁⟩, hlive, hsame, hzero, hframe⟩ := ProcessMemory.new_some hrun hs
    have hmem : p.frameLive ∈ s₁.live := by rw [hlive]; exact List.mem_cons_self
    have hnodup := hrun₁.live_nodup
    rw [hlive, List.nodup_cons] at hnodup
    have hne : ∀ l ∈ p.stackLive :: s.live, l ≠ p.frameLive := fun l hl e => hnodup.1 (e ▸ hl)
    have hsub : ∀ l ∈ p.stackLive :: s.live, l ∈ s₁.live := by
      intro l hl
      rw [hlive]
      exact List.mem_cons_of_mem _ hl
    have houtside : ∀ x, ¬ p.frameLive.Requested x →
        TrapFrame.writeField (TrapFrame.writeField s₁.mem p.trapFrame .sp
        (Stack.top p.stack)) p.trapFrame .elr fnPtr.toNat x = s₁.mem x := fun x hx =>
      (TrapFrame.writeField_outside _ _ _ hx).trans (TrapFrame.writeField_outside _ _ _ hx)
    obtain ⟨hrun', hothers⟩ := hrun₁.write hmem houtside
    refine ⟨⟨h₁, hrun'⟩, hlive, ?_, ?_, ?_⟩
    · intro l hl x hx
      have hl' := List.mem_cons_of_mem p.stackLive hl
      exact (hothers l (hsub l hl') (hne l hl') x hx).trans (hsame l hl x hx)
    · intro x hx
      have hl' : p.stackLive ∈ p.stackLive :: s.live := List.mem_cons_self
      exact (hothers _ (hsub _ hl') (hne _ hl') x hx).trans (hzero x hx)
    · intro f
      rw [System.withMem_mem]
      by_cases helr : f = .elr
      · subst helr
        rw [TrapFrame.readField_self]
        exact Nat.mod_eq_of_lt fnPtr.toNat_lt
      · rw [TrapFrame.readField_of_ne _ _ _ helr]
        by_cases hsp : f = .sp
        · subst hsp
          rw [TrapFrame.readField_self]
          exact UInt64.toNat_ofNat'.symm
        · rw [TrapFrame.readField_of_ne _ _ _ hsp, hframe]
          cases f with
          | sp => exact absurd rfl hsp
          | elr => exact absurd rfl helr
          | _ => rfl

end

/-! ## Runs with processes -/

theorem memoryMap_some {profile : Profile} {fuel endAddr start «end» : Nat} {m : Memory}
    (h : memoryMap profile fuel m endAddr = .ok (some (start, «end»))) :
    start = endAddr % 2 ^ 32 ∧ «end» < 2 ^ 32 := by
  obtain ⟨⟨o, it⟩, -, hread⟩ := bind_ok h
  cases o with
  | none => cases hread
  | some atag =>
    simp only at hread
    split at hread
    · cases hread
    · obtain ⟨e, hadd, hread⟩ := bind_ok hread
      cases hread
      exact ⟨rfl, Profile.fit_lt hadd⟩

/-- What the processes own: allocations of the run, no two of them the same. -/
structure Owned (start «end» : Nat) (ps : List ProcessMemory) (s : System) : Prop where
  reached : ∃ h, Run start «end» h s
  nodup : (ps.flatMap ProcessMemory.lives).Nodup
  live : ∀ l ∈ ps.flatMap ProcessMemory.lives, l ∈ s.live

section
variable {start «end» fuel : Nat} {ps qs : List ProcessMemory} {p : ProcessMemory} {s s' : System}

theorem Owned.spawn (ho : Owned start «end» ps s) {fnPtr : UInt64} (hnew : newProcess fuel fnPtr s = .ok (p, s')) :
    Owned start «end» (ps ++ [p]) s' := by
  obtain ⟨h, hrun⟩ := ho.reached
  obtain ⟨⟨h', hrun'⟩, hlive, -⟩ := newProcess_spec hrun hnew
  have hnodup := hrun'.live_nodup
  have hlive' : s'.live = p.lives ++ s.live := hlive
  rw [hlive', List.nodup_append] at hnodup
  refine ⟨⟨h', hrun'⟩, ?_, ?_⟩
  · rw [List.flatMap_append, List.flatMap_singleton, List.nodup_append]
    exact ⟨ho.nodup, hnodup.1, fun l hl l' hl' e => hnodup.2.2 l' hl' l (ho.live l hl) e.symm⟩
  · intro l hl
    rw [List.flatMap_append, List.flatMap_singleton] at hl
    rw [hlive']
    rcases List.mem_append.mp hl with hl | hl
    · exact List.mem_append_right _ (ho.live l hl)
    · exact List.mem_append_left _ hl

theorem Run.dealloc {h : List (Call × Reply)} (hrun : Run start «end» h s) {l : Live} (hl : l ∈ s.live) {r : Reply}
    (hcall : s.call fuel (.dealloc l) = .ok (r, s')) :
    (∃ h', Run start «end» h' s') ∧ s'.live = s.live.erase l := by
  have hc : (Call.dealloc l).Allowed s.live := hl
  refine ⟨⟨_, hrun.call hc hcall⟩, ?_⟩
  obtain ⟨a, -, hcall⟩ := bind_ok hcall
  cases hcall
  rfl

theorem Owned.drop (ho : Owned start «end» (ps ++ p :: qs) s) (hdrop : p.drop fuel s = .ok s') :
    Owned start «end» (ps ++ qs) s' := by
  obtain ⟨h, hrun⟩ := ho.reached
  obtain ⟨⟨r₁, s₁⟩, hframe, hdrop⟩ := bind_ok hdrop
  obtain ⟨⟨r₂, s₂⟩, hstack, hdrop⟩ := bind_ok hdrop
  cases hdrop
  have hperm : ((ps ++ p :: qs).flatMap ProcessMemory.lives).Perm
      (p.frameLive :: p.stackLive :: (ps ++ qs).flatMap ProcessMemory.lives) :=
    List.perm_middle.flatMap_right ProcessMemory.lives
  have hnodup := hperm.nodup_iff.mp ho.nodup
  have hlive : ∀ l ∈ p.frameLive :: p.stackLive :: (ps ++ qs).flatMap ProcessMemory.lives, l ∈ s.live :=
    fun l hl => ho.live l (hperm.mem_iff.mpr hl)
  obtain ⟨hf, hnodup⟩ := List.nodup_cons.mp hnodup
  obtain ⟨hs, hnodup⟩ := List.nodup_cons.mp hnodup
  obtain ⟨⟨h₁, hrun₁⟩, hlive₁⟩ := hrun.dealloc (hlive _ List.mem_cons_self) hframe
  have hstackLive : p.stackLive ∈ s₁.live := by
    rw [hlive₁, List.mem_erase_of_ne fun e => hf (List.mem_cons.mpr (.inl e.symm))]
    exact hlive _ (List.mem_cons_of_mem _ List.mem_cons_self)
  obtain ⟨hrun₂, hlive₂⟩ := hrun₁.dealloc hstackLive hstack
  refine ⟨hrun₂, hnodup, ?_⟩
  intro l hl
  have hnef : l ≠ p.frameLive := fun e => hf (e ▸ List.mem_cons_of_mem _ hl)
  have hnes : l ≠ p.stackLive := fun e => hs (e ▸ hl)
  rw [hlive₂, List.mem_erase_of_ne hnes, hlive₁, List.mem_erase_of_ne hnef]
  exact hlive l (List.mem_cons_of_mem _ (List.mem_cons_of_mem _ hl))

theorem Owned.client (ho : Owned start «end» ps s) {c : Call} {r : Reply} (hc : c.Allowed s.live)
    (hown : ∀ l ∈ ps.flatMap ProcessMemory.lives, c ≠ .dealloc l) (hcall : s.call fuel c = .ok (r, s')) :
    Owned start «end» ps s' := by
  obtain ⟨h, hrun⟩ := ho.reached
  refine ⟨⟨_, hrun.call hc hcall⟩, ho.nodup, ?_⟩
  intro l hl
  cases c with
  | alloc layout =>
    obtain ⟨⟨r', a⟩, -, hcall⟩ := bind_ok hcall
    cases hcall
    cases r' with
    | ok q => exact List.mem_cons_of_mem _ (ho.live l hl)
    | error e => exact ho.live l hl
  | dealloc l' =>
    have hne : l ≠ l' := fun e => hown l hl (e ▸ rfl)
    rw [(hrun.dealloc hc hcall).2, List.mem_erase_of_ne hne]
    exact ho.live l hl

end

theorem ProcRun.owned {profile : Profile} {m : Memory} {endAddr : Nat} {ps : List ProcessMemory} {s : System}
    (hrun : ProcRun profile m endAddr ps s) : ∃ start «end» fuel,
      memoryMap profile fuel m endAddr = .ok (some (start, «end»)) ∧ Owned start «end» ps s := by
  induction hrun with
  | @boot fuel a ha =>
    obtain ⟨o, hmap, ha⟩ := bind_ok ha
    cases o with
    | none => cases ha
    | some region =>
      exact ⟨region.1, region.2, fuel, hmap, ⟨⟨_, .new ha⟩, .nil, by simp⟩⟩
  | spawn _ hnew ih =>
    obtain ⟨start, e, fuel, hmap, ho⟩ := ih
    exact ⟨start, e, fuel, hmap, ho.spawn hnew⟩
  | refused _ hnew ih =>
    obtain ⟨start, e, fuel, hmap, ho⟩ := ih
    obtain ⟨h, hrun⟩ := ho.reached
    obtain ⟨hrun', hlive, -⟩ := ProcessMemory.new_none hrun hnew
    exact ⟨start, e, fuel, hmap, ⟨hrun', ho.nodup, hlive ▸ ho.live⟩⟩
  | drop _ hdrop ih =>
    obtain ⟨start, e, fuel, hmap, ho⟩ := ih
    exact ⟨start, e, fuel, hmap, ho.drop hdrop⟩
  | client _ hc hown hcall ih =>
    obtain ⟨start, e, fuel, hmap, ho⟩ := ih
    exact ⟨start, e, fuel, hmap, ho.client hc hown hcall⟩
  | scribble _ hs ih =>
    obtain ⟨start, e, fuel, hmap, ho⟩ := ih
    obtain ⟨h, hrun⟩ := ho.reached
    exact ⟨start, e, fuel, hmap, ⟨⟨h, hrun.scribble hs⟩, ho.nodup, ho.live⟩⟩

theorem Run.within {start «end» : Nat} {h : List (Call × Reply)} {s : System} (hend : «end» ≤ 2 ^ 63)
    (hrun : Run start «end» h s) {l : Live} (hl : l ∈ s.live) :
    l.ptr ≠ 0 ∧ l.ptr % l.layout.align = 0 ∧ start ≤ l.ptr ∧ l.ptr + l.layout.size ≤ «end» := by
  obtain ⟨lo, hi, P₀, hlive, hbounds, hnew⟩ : ∃ lo hi, ∃ P₀ : Pool lo hi, P₀.live = [] ∧
      (lo < hi → start ≤ lo ∧ hi ≤ «end») ∧
      ∀ fuel m a, Allocator.new fuel start «end» m = .ok a → Refines a P₀ := by
    by_cases hex : ∃ S E, alignUp start 16 = .ok S ∧ alignDown «end» 16 = .ok E ∧ S ≠ 0 ∧ S < E ∧ E - S ≤ 2 ^ 63
    · obtain ⟨S, E, hS, hE, hS0, hlt, hle⟩ := hex
      exact ⟨S, E, Pool.whole (grain_region hS hE hlt hle), rfl, fun _ => region_within hend hS hE hlt,
        fun _ _ _ ha => refines_whole hS hE hS0 hlt hle ha⟩
    · refine ⟨0, 0, Pool.empty, rfl, fun h => absurd h (lt_irrefl _), fun fuel m a ha => ?_⟩
      obtain ⟨S, E, hS, hE, hs, -, ⟨rfl, hrep⟩ | ⟨hS0, hlt, hle, -⟩⟩ := new_ok ha
      · exact ⟨hrep, hs.le, Nat.zero_le _, by simp⟩
      · exact absurd ⟨S, E, hS, hE, hS0, hlt, hle⟩ hex
  obtain ⟨P, -, hm⟩ := hrun.replays hlive hnew
  rw [hm.live_eq] at hl
  have hw := P.live_within hl
  have hpos := (P.placed l hl).fit.size_pos
  have hsize := (P.placed l hl).size_le
  have hptr := hm.refines.ptr_pos hl
  obtain ⟨hlo, hhi⟩ := hbounds (by omega)
  exact ⟨by omega, (P.placed l hl).aligned, by omega, by omega⟩

theorem Owned.within {start «end» : Nat} {ps : List ProcessMemory} {s : System} (hend : «end» ≤ 2 ^ 63)
    (ho : Owned start «end» ps s) : ∀ l ∈ ps.flatMap ProcessMemory.lives,
      l.ptr ≠ 0 ∧ l.ptr % 16 = 0 ∧ start ≤ l.ptr ∧ l.ptr + l.layout.size ≤ «end» := by
  intro l hl
  obtain ⟨h, hrun⟩ := ho.reached
  obtain ⟨p, -, hp⟩ := List.mem_flatMap.mp hl
  have halign : l.layout.align = 16 := by
    rcases List.mem_cons.mp hp with rfl | hp
    · rfl
    · rw [List.mem_singleton.mp hp]
      rfl
  have hw := hrun.within hend (ho.live l hl)
  rwa [halign] at hw

theorem Owned.apart {start «end» : Nat} {ps : List ProcessMemory} {s : System} (ho : Owned start «end» ps s) :
    (ps.flatMap ProcessMemory.lives).Pairwise fun l l' => ∀ x, ¬ (l.Requested x ∧ l'.Requested x) := by
  obtain ⟨h, hrun⟩ := ho.reached
  refine ho.nodup.imp_of_mem fun {l l'} hl hl' hne x hx => ?_
  exact hne (hrun.live_inj (ho.live l hl) (ho.live l' hl') hx.1 hx.2)

section
variable {profile : Profile} {m : Memory} {endAddr : Nat} {ps : List ProcessMemory} {s s' : System}

/-- **Processes are apart.** In every state that the kernel reaches from its boot
parameters, the stacks and the frames of the processes lie between the end of
the kernel and the end of memory, are aligned for the processor, and no two of
them have a byte in common. -/
theorem processes_isolated (hrun : ProcRun profile m endAddr ps s) : ∃ «end» < 2 ^ 32,
    (∃ fuel, memoryMap profile fuel m endAddr = .ok (some (endAddr % 2 ^ 32, «end»))) ∧
    (∀ l ∈ ps.flatMap ProcessMemory.lives,
      l.ptr ≠ 0 ∧ l.ptr % 16 = 0 ∧ endAddr % 2 ^ 32 ≤ l.ptr ∧ l.ptr + l.layout.size ≤ «end») ∧
    (ps.flatMap ProcessMemory.lives).Pairwise fun l l' => ∀ x, ¬ (l.Requested x ∧ l'.Requested x) := by
  obtain ⟨start, e, fuel, hmap, ho⟩ := hrun.owned
  obtain ⟨rfl, he⟩ := memoryMap_some hmap
  exact ⟨e, he, ⟨fuel, hmap⟩, ho.within (by omega), ho.apart⟩

/-- What `new_process` returns in any reachable state
has a stack of zeroes, and a frame that is zero but for the entry point and the
top of that stack. No other process, nor any other client of the allocator, sees
a byte of its own change. -/
theorem newProcess_clean (hrun : ProcRun profile m endAddr ps s) {fuel : Nat} {fnPtr : UInt64} {p : ProcessMemory}
    (hnew : newProcess fuel fnPtr s = .ok (p, s')) :
    (∀ x, p.stack ≤ x → x < p.stack + Stack.SIZE → s'.mem x = 0) ∧
    (∀ f, TrapFrame.readField s'.mem p.trapFrame f = (newFrame p fnPtr).get f) ∧
    (∀ q ∈ ps, ∀ l ∈ q.lives, ∀ x, l.Requested x → s'.mem x = s.mem x) ∧ Undisturbed s s' := by
  obtain ⟨start, e, fuel₀, -, ho⟩ := hrun.owned
  obtain ⟨h, hrun⟩ := ho.reached
  obtain ⟨-, -, hsame, hzero, hframe⟩ := newProcess_spec hrun hnew
  refine ⟨fun x h₁ h₂ => hzero x ⟨h₁, h₂⟩, hframe, ?_, hsame⟩
  intro q hq l hl
  exact hsame l (ho.live l (List.mem_flatMap.mpr ⟨q, hq, hl⟩))

end

/-! ## Room for a process -/

theorem Pool.alloc_eq {lo hi p : Nat} {P : Pool lo hi} {layout inner : Layout} {bs : List Block}
    (hin : Allocator.innerLayout layout = .ok (some inner))
    (ha : allocate inner.size inner.align P.free = some (p, bs)) :
    ∃ P', P.alloc layout = .ok (.ok p, P') ∧ P'.free = divideAll bs := by
  unfold Pool.alloc
  split
  · rename_i hin'
    cases hin.symm.trans hin'
  · rename_i hin'
    cases hin.symm.trans hin'
  · rename_i inner' hin'
    cases hin.symm.trans hin'
    split
    · rename_i ha'
      cases ha.symm.trans ha'
    · rename_i p' bs' ha'
      cases ha.symm.trans ha'
      exact ⟨_, rfl, rfl⟩

section
variable {lo hi : Nat} {P : Pool lo hi} {s : System} {layout inner : Layout} {fuel : Nat}

theorem Models.alloc_some (hm : Models s P) (hin : Allocator.innerLayout layout = .ok (some inner)) {p : Nat}
    {bs : List Block} (ha : allocate inner.size inner.align P.free = some (p, bs)) (hf : total P.free + 2 ≤ fuel) :
    ∃ s', ∃ P' : Pool lo hi, s.alloc fuel layout = .ok (.ok p, s') ∧ Models s' P' ∧ P'.free = divideAll bs := by
  obtain ⟨P', hP, hfree⟩ := Pool.alloc_eq hin ha
  have hag := alloc_refines fuel hm.refines layout
  rw [hP] at hag
  obtain ⟨⟨r, a⟩, hok, hr, href, -⟩ := Returns.total hag hf
  simp only at hr
  subst hr
  refine ⟨⟨a, granted layout (.ok p) s.live⟩, P', ?_, ⟨href, ?_⟩, hfree⟩
  · rw [System.alloc, hok]
    rfl
  · rw [Pool.alloc_live hP, hm.live_eq]

theorem Models.alloc_none (hm : Models s P) (hin : Allocator.innerLayout layout = .ok (some inner))
    (ha : allocate inner.size inner.align P.free = none) (hf : total P.free + 2 ≤ fuel) :
    ∃ e s', s.alloc fuel layout = .ok (.error e, s') := by
  have hspec := hm.refines.alloc_returns hin fuel
  rw [ha] at hspec
  obtain ⟨r, hok, rfl⟩ := hspec.total (by omega)
  exact ⟨_, _, by rw [System.alloc, hok]; rfl⟩

theorem stack_inner : ∃ inner, Allocator.innerLayout Stack.layout = .ok (some inner) ∧ inner.size = Stack.SIZE ∧
    inner.align = 16 := by
  obtain ⟨inner, hin, hsize, halign⟩ := innerLayout_of_le (show Stack.layout.size ≤ 2 ^ 63 by decide)
  refine ⟨inner, hin, hsize.trans ?_, halign⟩
  have hmax : max Stack.layout.size 16 = 2 ^ 20 := by decide
  rw [hmax, Nat.clog_pow 2 20 (by decide)]
  rfl

theorem frame_inner : ∃ inner, Allocator.innerLayout TrapFrame.layout = .ok (some inner) ∧ inner.size = 1024 ∧
    inner.align = 16 := by
  obtain ⟨inner, hin, hsize, halign⟩ := innerLayout_of_le (show TrapFrame.layout.size ≤ 2 ^ 63 by decide)
  refine ⟨inner, hin, hsize.trans ?_, halign⟩
  have hclog : Nat.clog 2 800 = 10 := by
    apply le_antisymm
    · exact Nat.clog_le_of_le_pow (by decide)
    · exact Nat.lt_clog_iff_pow_lt (by decide) |>.mpr (by decide)
  exact congrArg (2 ^ ·) hclog

theorem Models.stack_new (hm : Models s P) {p : Nat} {bs : List Block}
    (ha : allocate Stack.SIZE 16 P.free = some (p, bs)) (hf : total P.free + 2 ≤ fuel) :
    ∃ s', ∃ P' : Pool lo hi, Stack.new fuel s = .ok (some p, s') ∧ Models s' P' ∧ P'.free = divideAll bs := by
  obtain ⟨inner, hin, hsize, halign⟩ := stack_inner
  rw [← hsize, ← halign] at ha
  obtain ⟨s₁, P₁, hok, hm₁, hfree⟩ := hm.alloc_some hin ha hf
  have hlive : (⟨p, Stack.layout⟩ : Live) ∈ s₁.live := by
    rw [(System.call_alloc hok).2]
    exact List.mem_cons_self
  have hpos := hm₁.refines.ptr_pos (hm₁.live_eq ▸ hlive)
  refine ⟨s₁.withMem (writeBytes s₁.mem p 0 Stack.SIZE), P₁, ?_, hm₁.scribble fun x hx => ?_, hfree⟩
  · simp only [Stack.new, hok, bind, Except.bind, if_neg (Nat.ne_of_gt hpos)]
    rfl
  · exact if_neg (hx _ hlive)

/-- In every reachable state `Process::new` stops. Where
the free list has no block for the stack it returns `None`; where it has one,
but then none for the frame, it aborts; else the process gets both blocks. -/
theorem processNew_room {profile : Profile} {m : Memory} {endAddr : Nat} {ps : List ProcessMemory}
    (hrun : ProcRun profile m endAddr ps s) : ∃ free, Yields s.allocator.freeList free ∧
      (allocate Stack.SIZE 16 free = none → Ensures (fun fuel => ProcessMemory.new fuel s) fun r => r.1 = none) ∧
      ∀ p bs, allocate Stack.SIZE 16 free = some (p, bs) →
        (allocate 1024 16 (divideAll bs) = none → Panics (fun fuel => ProcessMemory.new fuel s) "abort") ∧
        ∀ q bs', allocate 1024 16 (divideAll bs) = some (q, bs') →
          Ensures (fun fuel => ProcessMemory.new fuel s) fun r => r.1 = some ⟨q, p⟩ := by
  obtain ⟨start, e, fuel₀, -, ho⟩ := hrun.owned
  obtain ⟨h, hrun⟩ := ho.reached
  obtain ⟨lo, hi, P, hm⟩ := hrun.models
  obtain ⟨inner, hin, hsize, halign⟩ := frame_inner
  refine ⟨P.free, hm.refines.represents.freeList, ?_, ?_⟩
  · intro ha
    obtain ⟨inner, hin, hsize, halign⟩ := stack_inner
    rw [← hsize, ← halign] at ha
    refine ⟨total P.free + 2, fun fuel hf => ?_⟩
    obtain ⟨e, s', hok⟩ := hm.alloc_none hin ha hf
    refine ⟨(none, s'), ?_, rfl⟩
    simp only [ProcessMemory.new, Stack.new, hok, bind, Except.bind]
    rfl
  · intro p bs ha
    refine ⟨fun hnone => ?_, fun q bs' hsome => ?_⟩
    · refine ⟨max (total P.free + 2) (total (divideAll bs) + 2), fun fuel hf => ?_⟩
      obtain ⟨s₁, P₁, hok, hm₁, hfree⟩ := hm.stack_new ha (le_trans (Nat.le_max_left ..) hf)
      rw [← hfree] at hf
      rw [← hfree, ← hsize, ← halign] at hnone
      obtain ⟨e, s₂, hbox⟩ := hm₁.alloc_none hin hnone (le_trans (Nat.le_max_right ..) hf)
      simp only [ProcessMemory.new, ProcessMemory.boxNew, hok, hbox, bind, Except.bind]
    · refine ⟨max (total P.free + 2) (total (divideAll bs) + 2), fun fuel hf => ?_⟩
      obtain ⟨s₁, P₁, hok, hm₁, hfree⟩ := hm.stack_new ha (le_trans (Nat.le_max_left ..) hf)
      rw [← hfree] at hf
      rw [← hfree, ← hsize, ← halign] at hsome
      obtain ⟨s₂, P₂, hbox, -, -⟩ := hm₁.alloc_some hin hsome (le_trans (Nat.le_max_right ..) hf)
      refine ⟨(some ⟨q, p⟩, s₂.withMem (TrapFrame.zero.store s₂.mem q)), ?_, rfl⟩
      simp only [ProcessMemory.new, ProcessMemory.boxNew, hok, hbox, bind, Except.bind]
      rfl

theorem Models.newProcess (hm : Models s P) (fnPtr : UInt64) {p q : Nat} {bs bs' : List Block}
    (hstack : allocate Stack.SIZE 16 P.free = some (p, bs))
    (hframe : allocate 1024 16 (divideAll bs) = some (q, bs')) (hf₁ : total P.free + 2 ≤ fuel)
    (hf₂ : total (divideAll bs) + 2 ≤ fuel) :
    ∃ s', ∃ P' : Pool lo hi, newProcess fuel fnPtr s = .ok (⟨q, p⟩, s') ∧ Models s' P' ∧
      P'.free = divideAll bs' := by
  obtain ⟨inner, hin, hsize, halign⟩ := frame_inner
  obtain ⟨s₁, P₁, hok, hm₁, hfree⟩ := hm.stack_new hstack hf₁
  rw [← hfree] at hf₂
  rw [← hfree, ← hsize, ← halign] at hframe
  obtain ⟨s₂, P₂, hbox, hm₂, hfree₂⟩ := hm₁.alloc_some hin hframe hf₂
  have hlive : (⟨q, TrapFrame.layout⟩ : Live) ∈ s₂.live := by
    rw [(System.call_alloc hbox).2]
    exact List.mem_cons_self
  refine ⟨(s₂.withMem (TrapFrame.zero.store s₂.mem q)).withMem (TrapFrame.writeField (TrapFrame.writeField
    (TrapFrame.zero.store s₂.mem q) q .sp (Stack.top p)) q .elr fnPtr.toNat), P₂, ?_, ?_, hfree₂⟩
  · simp only [Osymandias.newProcess, ProcessMemory.new, ProcessMemory.boxNew, hok, hbox, bind, Except.bind]
    rfl
  · apply hm₂.scribble
    intro x hx
    have hx' := hx _ hlive
    rw [TrapFrame.writeField_outside _ _ _ hx', TrapFrame.writeField_outside _ _ _ hx',
      TrapFrame.store_outside _ _ _ hx']
    rfl

end

/-! A machine of 944 MiB whose kernel ends at 640 KiB. -/

theorem coreMem_boots : ∃ a, ProcRun .release coreMem 0xa0000 [] ⟨a, []⟩ ∧
    ∃ P : Pool 0xa0000 0x3b000000, Models ⟨a, []⟩ P ∧ P.free = divideAll [⟨0xa0000, 0x3af60000⟩] := by
  have hS : alignUp 0xa0000 16 = .ok 0xa0000 := by decide +kernel
  have hE : alignDown 0x3b000000 16 = .ok 0x3b000000 := by decide +kernel
  obtain ⟨n, hn⟩ := coreMem_area.memoryMap .release 0xa0000 (by decide)
  let fuel := max n (0x3b000000 - 0xa0000 + 1)
  have hmap : memoryMap .release fuel coreMem 0xa0000 = .ok (some (0xa0000, 0x3b000000)) := by
    rw [hn fuel (Nat.le_max_left ..)]
    decide +kernel
  obtain ⟨a, ha, -⟩ := (new_spec fuel coreMem hS hE (by decide) (by decide) (by decide)).total (Nat.le_max_right ..)
  have hboot : allocatorInitialize .release fuel coreMem 0xa0000 = .ok a := by
    rw [allocatorInitialize, hmap]
    exact ha
  exact ⟨a, .boot hboot, _, ⟨refines_whole hS hE (by decide) (by decide) (by decide) ha, rfl⟩, rfl⟩

theorem coreMem_room : ((allocate Stack.SIZE 16 (divideAll [⟨0xa0000, 0x3af60000⟩])).bind fun r =>
    allocate 1024 16 (divideAll r.2)).isSome = true := by decide +kernel

theorem coreMem_spawns (fnPtr : UInt64) : ∃ a fuel p s', ProcRun .release coreMem 0xa0000 [] ⟨a, []⟩ ∧
    newProcess fuel fnPtr ⟨a, []⟩ = .ok (p, s') := by
  obtain ⟨a, hrun, P, hm, hfree⟩ := coreMem_boots
  obtain ⟨r, hroom⟩ := Option.isSome_iff_exists.mp coreMem_room
  obtain ⟨⟨p, bs⟩, hstack, hframe⟩ := Option.bind_eq_some_iff.mp hroom
  rw [← hfree] at hstack
  obtain ⟨s', -, hnew, -⟩ := hm.newProcess fnPtr hstack hframe (Nat.le_max_left ..) (Nat.le_max_right ..)
  exact ⟨a, _, _, s', hrun, hnew⟩

theorem processes_isolated_one : ∃ p s, ProcRun .release coreMem 0xa0000 [p] s ∧ ∃ «end» < 2 ^ 32,
    0xa0000 ≤ p.stack ∧ p.stack + Stack.SIZE ≤ «end» ∧
    ∀ x, ¬ (p.frameLive.Requested x ∧ p.stackLive.Requested x) := by
  obtain ⟨a, fuel, p, s', hrun, hnew⟩ := coreMem_spawns 0x80000
  have hrun' : ProcRun .release coreMem 0xa0000 [p] s' := hrun.spawn hnew
  obtain ⟨e, he, -, hin, hapart⟩ := processes_isolated hrun'
  obtain ⟨-, -, hlo, hhi⟩ := hin p.stackLive (by simp [ProcessMemory.lives])
  have hpair : [p.frameLive, p.stackLive].Pairwise fun l l' => ∀ x, ¬ (l.Requested x ∧ l'.Requested x) := hapart
  exact ⟨p, s', hrun', e, he, hlo, hhi, (List.pairwise_cons.mp hpair).1 _ List.mem_cons_self⟩

theorem newProcess_clean_first : ∃ a fuel p s', newProcess fuel 0x80000 ⟨a, []⟩ = .ok (p, s') ∧
    TrapFrame.readField s'.mem p.trapFrame .elr = 0x80000 := by
  obtain ⟨a, fuel, p, s', hrun, hnew⟩ := coreMem_spawns 0x80000
  exact ⟨a, fuel, p, s', hnew, (newProcess_clean hrun hnew).2.1 .elr⟩

theorem processNew_room_first : ∃ a, ProcRun .release coreMem 0xa0000 [] ⟨a, []⟩ ∧
    ∃ free, Yields a.freeList free := by
  obtain ⟨a, hrun, -⟩ := coreMem_boots
  obtain ⟨free, hfree, -⟩ := processNew_room hrun
  exact ⟨a, hrun, free, hfree⟩

end Osymandias
