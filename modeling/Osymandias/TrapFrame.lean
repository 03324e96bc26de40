import Osymandias.Aarch64

/-!
# Trap frames

`traps/trap_frame.rs`: the saved registers of a process, and where `repr(C)`
puts each of them.
-/

namespace Osymandias

/-- The fields `q0` to `q31` and `x0` to `x30` are two families. -/
structure TrapFrame where
  elr : UInt64
  spsr : UInt64
  sp : UInt64
  tpidr : UInt64
  q : Fin 32 → BitVec 128
  x : Fin 31 → UInt64
  reserved : UInt64

namespace TrapFrame

def zero : TrapFrame := ⟨0, 0, 0, 0, fun _ => 0, fun _ => 0, 0⟩

def setX (tf : TrapFrame) (i : Fin 31) (v : UInt64) : TrapFrame := { tf with x := Function.update tf.x i v }

@[simp] theorem setX_self (tf : TrapFrame) (i : Fin 31) (v : UInt64) : (tf.setX i v).x i = v :=
  Function.update_self ..

theorem setX_of_ne (tf : TrapFrame) {i j : Fin 31} (v : UInt64) (h : j ≠ i) : (tf.setX i v).x j = tf.x j :=
  Function.update_of_ne h ..

/-! ## Layout -/

inductive Field where
  | elr | spsr | sp | tpidr
  | q (i : Fin 32)
  | x (i : Fin 31)
  | reserved
  deriving DecidableEq, Repr

def fields : List Field :=
  [.elr, .spsr, .sp, .tpidr,
   .q 0, .q 1, .q 2, .q 3, .q 4, .q 5, .q 6, .q 7,
   .q 8, .q 9, .q 10, .q 11, .q 12, .q 13, .q 14, .q 15,
   .q 16, .q 17, .q 18, .q 19, .q 20, .q 21, .q 22, .q 23,
   .q 24, .q 25, .q 26, .q 27, .q 28, .q 29, .q 30, .q 31,
   .x 1, .x 2, .x 3, .x 4, .x 5, .x 6, .x 7, .x 8,
   .x 9, .x 10, .x 11, .x 12, .x 13, .x 14, .x 15, .x 16,
   .x 17, .x 18, .x 19, .x 20, .x 21, .x 22, .x 23, .x 24,
   .x 25, .x 26, .x 27, .x 28, .x 29,
   .reserved, .x 30, .x 0]

def Field.size : Field → Nat
  | .q _ => 16
  | _ => 8

/-- `repr(C)`: each field at the next multiple of its alignment. -/
def offsets : Nat → List Field → List (Field × Nat)
  | _, [] => []
  | n, f :: fs =>
    let o := (n + f.size - 1) / f.size * f.size
    (f, o) :: offsets (o + f.size) fs

def offset (f : Field) : Option Nat := ((offsets 0 fields).find? fun p => p.1 = f).map Prod.snd

end TrapFrame

end Osymandias
