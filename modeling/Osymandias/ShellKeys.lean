import Osymandias.Shell

/-!
# The keys of `readline`

One turn of the loop of `readline` ends the line, fails, or goes on with an
edited line; what it writes to the console is the echo of the key.
-/

namespace Osymandias

namespace Shell

open UnixPath

def Terminator (b : UInt8) : Prop := b = 13 ∨ b = 10

def Erases (b : UInt8) : Prop := b = 8 ∨ b = 127

def Prints (b : UInt8) : Prop := 32 ≤ b ∧ b ≤ 126

instance (b : UInt8) : Decidable (Terminator b) := inferInstanceAs (Decidable (_ ∨ _))

instance (b : UInt8) : Decidable (Erases b) := inferInstanceAs (Decidable (_ ∨ _))

instance (b : UInt8) : Decidable (Prints b) := inferInstanceAs (Decidable (_ ∧ _))

/-! ## One key -/

inductive Key (cap : Nat) where
  | kept (stack : StackVec UInt8 cap)
  | returned (r : Except Error (StackVec UInt8 cap))

/-- One turn of the loop of `readline`, and what it writes to the console. -/
def keystroke {cap : Nat} (stack : StackVec UInt8 cap) (b : UInt8) : Key cap × Text :=
  if Terminator b then (.returned (.ok stack), [13, 10])
  else if Erases b then (.kept stack.pop.2, if stack.items = [] then [] else [8, 32, 8])
  else if Prints b then
    match stack.push b with
    | some stack' => (.kept stack', [b])
    | none => (.returned (.error .lineTooLong), [b])
  else (.kept stack, [7])

def edit (held : Text) (b : UInt8) : Text :=
  if Erases b then held.dropLast else if Prints b then held ++ [b] else held

/-- The three ways a key is echoed. -/
def Echoes (held : Text) (b : UInt8) (out : Text) : Prop :=
  (Erases b ∧ out = if held = [] then [] else [8, 32, 8]) ∨ (¬Erases b ∧ Prints b ∧ out = [b]) ∨
    (¬Erases b ∧ ¬Prints b ∧ out = [7])

theorem Prints.not_erases {b : UInt8} (h : Prints b) : ¬Erases b := by
  rintro (rfl | rfl)
  · exact absurd h (by decide)
  · exact absurd h (by decide)

section
variable {cap : Nat}

theorem readline_key (stack : StackVec UInt8 cap) (b : UInt8) (console : Text) :
    BufferedIo.readline stack (b :: console) =
      match keystroke stack b with
      | (.kept stack', out) =>
        ((BufferedIo.readline stack' console).1, out ++ (BufferedIo.readline stack' console).2)
      | (.returned r, out) => (.returned r console, out) := by
  rw [BufferedIo.readline]
  unfold keystroke BufferedIo.push
  by_cases hterm : Terminator b
  · have hb : b = 13 ∨ b = 10 := hterm
    rw [if_pos hb, if_pos hterm]
  · have hb : ¬(b = 13 ∨ b = 10) := hterm
    rw [if_neg hb, if_neg hterm]
    by_cases herase : Erases b
    · have hb : b = 8 ∨ b = 127 := herase
      rw [if_pos hb, if_pos herase]
      unfold StackVec.pop
      cases hlast : stack.items.getLast? with
      | none =>
        rw [if_pos (List.getLast?_eq_none_iff.mp hlast)]
        rfl
      | some c =>
        rw [if_neg (fun hnil => by rw [hnil] at hlast; cases hlast)]
    · have hb : ¬(b = 8 ∨ b = 127) := herase
      rw [if_neg hb, if_neg herase]
      by_cases hp : Prints b
      · have hb : 32 ≤ b ∧ b ≤ 126 := hp
        rw [if_pos hb, if_pos hp]
        cases stack.push b <;> rfl
      · have hb : ¬(32 ≤ b ∧ b ≤ 126) := hp
        rw [if_neg hb, if_neg hp]
        rfl

theorem keystroke_cases (stack : StackVec UInt8 cap) (b : UInt8) :
    (Terminator b ∧ keystroke stack b = (.returned (.ok stack), [13, 10])) ∨
    (¬Terminator b ∧ (Prints b ∧ cap ≤ stack.items.length) ∧
      keystroke stack b = (.returned (.error .lineTooLong), [b])) ∨
    (¬Terminator b ∧ ¬(Prints b ∧ cap ≤ stack.items.length) ∧ ∃ stack' out,
      keystroke stack b = (.kept stack', out) ∧ stack'.items = edit stack.items b ∧ Echoes stack.items b out) := by
  unfold keystroke edit Echoes
  by_cases hterm : Terminator b
  · rw [if_pos hterm]
    exact .inl ⟨hterm, rfl⟩
  · rw [if_neg hterm]
    refine .inr ?_
    by_cases herase : Erases b
    · rw [if_pos herase, if_pos herase]
      exact .inr ⟨hterm, fun hp => hp.1.not_erases herase, _, _, rfl, rfl, .inl ⟨herase, rfl⟩⟩
    · rw [if_neg herase, if_neg herase]
      by_cases hp : Prints b
      · rw [if_pos hp, if_pos hp]
        unfold StackVec.push
        by_cases hlen : stack.items.length < cap
        · rw [dif_pos hlen]
          exact .inr ⟨hterm, fun h => absurd hlen (not_lt.mpr h.2), _, _, rfl, rfl, .inr (.inl ⟨herase, hp, rfl⟩)⟩
        · rw [dif_neg hlen]
          exact .inl ⟨hterm, ⟨hp, not_lt.mp hlen⟩, rfl⟩
      · rw [if_neg hp, if_neg hp]
        exact .inr ⟨hterm, fun h => hp h.1, _, _, rfl, rfl, .inr (.inr ⟨herase, hp, rfl⟩)⟩

end

/-! ## What is held -/

def Printable (text : Text) : Prop := ∀ b ∈ text, 32 ≤ b ∧ b ≤ 126

theorem printable_nil : Printable [] := by
  intro b hb
  cases hb

theorem edit_printable {held : Text} (h : Printable held) (b : UInt8) : Printable (edit held b) := by
  unfold edit
  split_ifs with herase hp
  · exact fun c hc => h c (List.dropLast_subset _ hc)
  · intro c hc
    rcases List.mem_append.mp hc with hc | hc
    · exact h c hc
    · rw [List.mem_singleton.mp hc]
      exact hp
  · exact h

theorem foldl_edit_printable (bs : Text) {held : Text} (h : Printable held) : Printable (bs.foldl edit held) := by
  induction bs generalizing held with
  | nil => exact h
  | cons b bs ih => exact ih (edit_printable h b)

end Shell

end Osymandias
