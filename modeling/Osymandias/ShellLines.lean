import Osymandias.ShellCommands
import Osymandias.ShellKeys

/-!
# Overlong lines

`readline` gives up on a line at the byte that does not fit, and the next `eval`
starts a new line with the byte behind it: the rest of the overlong line is read
as a line of its own.
-/

namespace Osymandias

namespace Shell

open UnixPath

/-- A whole line was read between the two places in the console. -/
def LineBetween (after before : Text) : Prop := ∃ mid, after = mid ++ before ∧ ∃ b ∈ mid, Terminator b

/-- The turn dispatched a command, or ended the shell. -/
def Turn.Commands (turn : Turn) : Prop :=
  ∃ line cmd, turn.line = .ok line ∧ lineCommand line = .ok (some cmd)

/-- No command comes from a line that was too long. -/
def RejectsWhole (turns : List Turn) : Prop :=
  turns.Pairwise fun e d => e.line = .error .lineTooLong → d.Commands → LineBetween e.after d.before

/-! ## Lines as they are typed -/

/-- The lines of the console that are complete, the first of which has begun with `acc`. -/
def lines (acc : Text) : Text → List Text
  | [] => []
  | b :: console => if Terminator b then acc :: lines [] console else lines (acc ++ [b]) console

/-- What a line leaves in a buffer of 512 bytes that is emptied by the byte that
does not fit, and whether there was such a byte. -/
structure Typed where
  held : Text
  overflowed : Bool

def Typed.next (self : Typed) (b : UInt8) : Typed :=
  if Prints b ∧ 512 ≤ self.held.length then ⟨[], true⟩ else { self with held := edit self.held b }

def typed (line : Text) : Typed := line.foldl Typed.next ⟨[], false⟩

def Runs (held : Text) : Prop := 1 ≤ (words held).length ∧ (words held).length ≤ 64

instance (held : Text) : Decidable (Runs held) := inferInstanceAs (Decidable (_ ∧ _))

def Exits (held : Text) : Prop := Runs held ∧ (words held).head? = some (bytes "exit")

/-- Until the shell exits, what is held of a line that overflows is no command. -/
def Clean : List Text → Prop
  | [] => True
  | line :: rest =>
    ((typed line).overflowed = true → ¬Runs (typed line).held) ∧ (Exits (typed line).held ∨ Clean rest)

theorem typed_nil : (typed []).held = (.new : StackVec UInt8 512).items := rfl

theorem typed_concat (acc : Text) (b : UInt8) : typed (acc ++ [b]) = (typed acc).next b := by
  unfold typed
  rw [List.foldl_append]
  rfl

theorem typed_printable (line : Text) : Printable (typed line).held := by
  induction line using List.reverseRecOn with
  | nil => exact printable_nil
  | append_singleton line b ih =>
    rw [typed_concat, Typed.next]
    split_ifs
    · exact printable_nil
    · exact edit_printable ih b

/-! ## Commands -/

theorem fromUtf8_printable {line : Text} (h : Printable line) : fromUtf8 line = .ok line := by
  have hbyte : ∀ b : UInt8, b ≤ 126 → String.utf8EncodeChar (Char.ofUInt8 b) = [b] := by
    intro b hb
    have hle : (Char.ofUInt8 b).val.toNat ≤ 127 := by
      have : b.toNat ≤ 126 := UInt8.le_iff_toNat_le.mp hb
      simp [Char.ofUInt8]
      omega
    unfold String.utf8EncodeChar
    simp only [hle, if_true]
    simp [Char.ofUInt8]
  have hline : (line.map Char.ofUInt8).flatMap String.utf8EncodeChar = line := by
    rw [List.flatMap_map]
    induction line with
    | nil => rfl
    | cons b line ih =>
      obtain ⟨hb, hrest⟩ := List.forall_mem_cons.mp h
      rw [List.flatMap_cons, hbyte b hb.2, ih hrest]
      rfl
  unfold fromUtf8
  refine if_pos ⟨line.map Char.ofUInt8, ?_⟩
  unfold List.utf8Encode
  rw [hline]
  exact ByteArray.ext (by simp)

theorem lineCommand_iff {line : Text} (h : Printable line) (cmd : Command) :
    lineCommand line = .ok (some cmd) ↔ Runs line ∧ cmd.args = words line := by
  unfold Runs lineCommand
  by_cases hlen : line.length = 0
  · rw [List.length_eq_zero_iff.mp hlen, words_nil]
    refine ⟨fun hc => (by cases hc), ?_⟩
    rintro ⟨⟨hpos, -⟩, -⟩
    cases hpos
  · rw [if_neg hlen, fromUtf8_printable h]
    obtain ⟨cargs, hne⟩ := cmd
    simp only [bind, Except.bind, parse_eq, pure, Except.pure]
    by_cases hlt : 64 < (words line).length
    · simp [hlt]
    · rw [if_neg hlt]
      by_cases hnil : words line = []
      · simp [hnil]
      · have hpos : 1 ≤ (words line).length := List.length_pos_iff.mpr hnil
        simp [hnil, hpos, not_lt.mp hlt, eq_comm]

theorem evalLine_terminates_iff {line : Text} (kernel : Kernel) (self : Shell) (h : Printable line) :
    (evalLine kernel self line).1.1 = .ok .terminate ↔ Exits line := by
  unfold Exits evalLine
  by_cases hr : Runs line
  · have hne : words line ≠ [] := List.length_pos_iff.mp hr.1
    have hcmd := (lineCommand_iff h ⟨words line, hne⟩).mpr ⟨hr, rfl⟩
    rw [hcmd]
    have hpath : (⟨words line, hne⟩ : Command).path = bytes "exit" ↔ (words line).head? = some (bytes "exit") := by
      rw [List.head?_eq_some_head hne, Option.some.injEq]
      rfl
    by_cases hexit : (⟨words line, hne⟩ : Command).path = bytes "exit"
    · simp [hexit, hr, hpath.mp hexit]
    · have hhead := mt hpath.mpr hexit
      simp only [hexit, if_false, hr, hhead, and_false, iff_false]
      split <;> simp
  · cases hl : lineCommand line with
    | error e => simp [hr]
    | ok command =>
      cases command with
      | none => simp [hr]
      | some cmd => exact absurd ((lineCommand_iff h cmd).mp hl).1 hr

/-! ## Turns -/

section
variable (kernel : Kernel)

/-- The turns from a line that is read up to `input`. -/
def resume (self : Shell) (before : Text) (stack : StackVec UInt8 512) (input : Text) : List Turn :=
  match finish kernel self before (BufferedIo.readline stack input).1 with
  | none => []
  | some (turn, self', _) => if turn.terminates then [turn] else turn :: (repl kernel self' turn.after).1

theorem repl_eq_resume (self : Shell) (console : Text) :
    (repl kernel self console).1 = resume kernel self console .new console := by
  rw [repl]
  unfold resume
  split
  · rename_i heq
    rw [show finish kernel self console _ = none from congrArg Prod.fst heq]
  · rename_i heq
    rw [show finish kernel self console _ = some _ from congrArg Prod.fst heq]
    dsimp only
    split_ifs <;> rfl

def lineTurn (self : Shell) (before line after : Text) : Turn :=
  ⟨before, .ok line, after, (evalLine kernel self line).1.1⟩

theorem resume_ended {self : Shell} {stack : StackVec UInt8 512} {b : UInt8}
    (h : keystroke stack b = (.returned (.ok stack), [13, 10])) (before bs : Text) :
    resume kernel self before stack (b :: bs) =
      lineTurn kernel self before stack.items bs ::
        if (lineTurn kernel self before stack.items bs).terminates then []
        else resume kernel (evalLine kernel self stack.items).2 bs .new bs := by
  rw [← repl_eq_resume]
  unfold resume
  rw [readline_key, h]
  unfold lineTurn
  dsimp only [finish]
  split_ifs <;> rfl

theorem resume_full {self : Shell} {stack : StackVec UInt8 512} {b : UInt8}
    (h : keystroke stack b = (.returned (.error .lineTooLong), [b])) (before bs : Text) :
    resume kernel self before stack (b :: bs) =
      ⟨before, .error .lineTooLong, bs, .error .lineTooLong⟩ :: resume kernel self bs .new bs := by
  rw [← repl_eq_resume]
  unfold resume
  rw [readline_key, h]
  rfl

theorem resume_kept {self : Shell} {stack stack' : StackVec UInt8 512} {b : UInt8} {out : Text}
    (h : keystroke stack b = (.kept stack', out)) (before bs : Text) :
    resume kernel self before stack (b :: bs) = resume kernel self before stack' bs := by
  unfold resume
  rw [readline_key, h]

theorem resume_before : ∀ (input : Text) {self : Shell} {before : Text} {stack : StackVec UInt8 512} {d : Turn},
    d ∈ resume kernel self before stack input → d.before = before ∨ d.before <:+ input
  | [], _, _, _, _, hd => by cases hd
  | b :: bs, self, before, stack, d, hd => by
    have hbs : bs <:+ b :: bs := List.suffix_cons b bs
    have hnew : ∀ self', d ∈ resume kernel self' bs .new bs → d.before <:+ b :: bs := by
      intro self' hmem
      rcases resume_before bs hmem with h | h
      · rw [h]
        exact hbs
      · exact h.trans hbs
    rcases keystroke_cases stack b with ⟨-, hs⟩ | ⟨-, -, hs⟩ | ⟨-, -, stack', out, hs, -, -⟩
    · rw [resume_ended kernel hs, List.mem_cons] at hd
      rcases hd with rfl | hd
      · exact .inl rfl
      · split_ifs at hd
        · cases hd
        · exact .inr (hnew _ hd)
    · rw [resume_full kernel hs, List.mem_cons] at hd
      rcases hd with rfl | hd
      · exact .inl rfl
      · exact .inr (hnew _ hd)
    · rw [resume_kept kernel hs] at hd
      exact (resume_before bs hd).imp_right fun h => h.trans hbs

theorem resume_new_before {self : Shell} {bs : Text} {d : Turn} (hd : d ∈ resume kernel self bs .new bs) :
    d.before <:+ bs := by
  rcases resume_before kernel bs hd with h | h
  · rw [h]
  · exact h

theorem lineTurn_commands_iff {line : Text} (self : Shell) (before after : Text) (h : Printable line) :
    (lineTurn kernel self before line after).Commands ↔ Runs line := by
  refine ⟨?_, ?_⟩
  · rintro ⟨line', cmd, hline, hcmd⟩
    cases hline
    exact ((lineCommand_iff h cmd).mp hcmd).1
  · intro hr
    have hne : words line ≠ [] := List.length_pos_iff.mp hr.1
    exact ⟨line, ⟨words line, hne⟩, rfl, (lineCommand_iff h _).mpr ⟨hr, rfl⟩⟩

theorem lineTurn_terminates_iff {line : Text} (self : Shell) (before after : Text) (h : Printable line) :
    (lineTurn kernel self before line after).terminates = true ↔ Exits line := by
  rw [← evalLine_terminates_iff kernel self h]
  unfold Turn.terminates lineTurn
  dsimp only
  split
  · rename_i hs
    exact ⟨fun _ => hs, fun _ => rfl⟩
  · rename_i hs
    exact ⟨fun hf => (by cases hf), fun he => absurd he hs⟩

end

/-! ## The console between two turns -/

section
variable {b : UInt8} {bs before : Text}

theorem lineBetween_cons (hb : ¬Terminator b) : LineBetween (b :: bs) before ↔ LineBetween bs before := by
  refine ⟨?_, ?_⟩
  · rintro ⟨mid, heq, c, hc, hterm⟩
    cases mid with
    | nil => cases hc
    | cons b' mid =>
      obtain ⟨rfl, rfl⟩ := List.cons.inj heq
      rcases List.mem_cons.mp hc with rfl | hc
      · exact absurd hterm hb
      · exact ⟨mid, rfl, c, hc, hterm⟩
  · rintro ⟨mid, rfl, c, hc, hterm⟩
    exact ⟨b :: mid, rfl, c, List.mem_cons_of_mem b hc, hterm⟩

theorem lineBetween_of_suffix (hb : Terminator b) (h : before <:+ bs) : LineBetween (b :: bs) before := by
  obtain ⟨mid, rfl⟩ := h
  exact ⟨b :: mid, rfl, b, List.mem_cons_self, hb⟩

theorem not_lineBetween {input : Text} (h : input <:+ before) : ¬LineBetween input before := by
  rintro ⟨mid, rfl, c, hc, -⟩
  have hlen := h.length_le
  rw [List.length_append] at hlen
  have hmid : mid = [] := List.length_eq_zero_iff.mp (by omega)
  rw [hmid] at hc
  cases hc

end

/-! ## Whole sessions -/

/-- The turns reject whole lines, the one that is being read included if it has overflowed. -/
def Rejects (input : Text) (overflowed : Bool) (turns : List Turn) : Prop :=
  RejectsWhole turns ∧ (overflowed = true → ∀ d ∈ turns, d.Commands → LineBetween input d.before)

theorem rejects_false {input : Text} {turns : List Turn} : Rejects input false turns ↔ RejectsWhole turns := by
  unfold Rejects
  simp

section
variable (kernel : Kernel) {self : Shell} {b : UInt8} {bs before : Text} {stack : StackVec UInt8 512}

theorem rejects_ended {overflowed : Bool} (hs : keystroke stack b = (.returned (.ok stack), [13, 10]))
    (hb : Terminator b) (hp : Printable stack.items) (hbefore : b :: bs <:+ before) :
    Rejects (b :: bs) overflowed (resume kernel self before stack (b :: bs)) ↔
      (overflowed = true → ¬Runs stack.items) ∧
        (Exits stack.items ∨ RejectsWhole (resume kernel (evalLine kernel self stack.items).2 bs .new bs)) := by
  have hcmd := lineTurn_commands_iff kernel self before bs hp
  have hexit := lineTurn_terminates_iff kernel self before bs hp
  rw [resume_ended kernel hs]
  unfold Rejects RejectsWhole
  rw [List.pairwise_cons, and_comm]
  refine and_congr (imp_congr_right fun _ => ⟨?_, ?_⟩) ?_
  · intro h hr
    exact not_lineBetween hbefore (h _ List.mem_cons_self (hcmd.mpr hr))
  · intro hr d hd hc
    rcases List.mem_cons.mp hd with rfl | hd
    · exact absurd (hcmd.mp hc) hr
    · split_ifs at hd
      · cases hd
      · exact lineBetween_of_suffix hb (resume_new_before kernel hd)
  · rw [and_iff_right fun _ _ he => (by cases he)]
    by_cases he : Exits stack.items
    · rw [if_pos (hexit.mpr he)]
      exact ⟨fun _ => .inl he, fun _ => List.Pairwise.nil⟩
    · rw [if_neg (mt hexit.mp he), or_iff_right he]

theorem rejects_full {overflowed : Bool} (hs : keystroke stack b = (.returned (.error .lineTooLong), [b]))
    (hb : ¬Terminator b) :
    Rejects (b :: bs) overflowed (resume kernel self before stack (b :: bs)) ↔
      Rejects bs true (resume kernel self bs .new bs) := by
  rw [resume_full kernel hs]
  unfold Rejects RejectsWhole
  rw [List.pairwise_cons]
  refine ⟨?_, ?_⟩
  · rintro ⟨⟨hhead, htail⟩, -⟩
    exact ⟨htail, fun _ d hd => hhead d hd rfl⟩
  · rintro ⟨htail, hover⟩
    refine ⟨⟨fun d hd _ => hover rfl d hd, htail⟩, ?_⟩
    intro _ d hd hc
    rcases List.mem_cons.mp hd with rfl | hd
    · obtain ⟨line, cmd, hline, -⟩ := hc
      cases hline
    · exact (lineBetween_cons hb).mpr (hover rfl d hd hc)

theorem rejects_kept {stack' : StackVec UInt8 512} {overflowed : Bool} {out : Text}
    (hs : keystroke stack b = (.kept stack', out)) (hb : ¬Terminator b) :
    Rejects (b :: bs) overflowed (resume kernel self before stack (b :: bs)) ↔
      Rejects bs overflowed (resume kernel self before stack' bs) := by
  rw [resume_kept kernel hs]
  unfold Rejects
  simp only [lineBetween_cons hb]

theorem resume_rejects_iff : ∀ (input : Text) {self : Shell} {before acc : Text} {stack : StackVec UInt8 512},
    (typed acc).held = stack.items → input <:+ before →
      (Rejects input (typed acc).overflowed (resume kernel self before stack input) ↔ Clean (lines acc input))
  | [], _, _, _, _, _, _ => by
    refine ⟨fun _ => trivial, fun _ => ⟨List.Pairwise.nil, ?_⟩⟩
    intro _ d hd
    cases hd
  | b :: bs, self, before, acc, stack, hacc, hbefore => by
    have hbs : bs <:+ before := (List.suffix_cons b bs).trans hbefore
    unfold lines
    rcases keystroke_cases stack b with ⟨hb, hs⟩ | ⟨hb, hfull, hs⟩ | ⟨hb, hfull, stack', out, hs, hitems, -⟩
    · have hp : Printable stack.items := hacc ▸ typed_printable acc
      have ih : Rejects bs false (resume kernel (evalLine kernel self stack.items).2 bs .new bs) ↔
          Clean (lines [] bs) := resume_rejects_iff bs typed_nil (List.suffix_refl bs)
      rw [rejects_false] at ih
      rw [rejects_ended kernel hs hb hp hbefore, if_pos hb, Clean, hacc, ← ih]
    · have htyped : typed (acc ++ [b]) = ⟨[], true⟩ := by
        rw [typed_concat, Typed.next, hacc, if_pos hfull]
      have hheld : (typed (acc ++ [b])).held = (.new : StackVec UInt8 512).items := by
        rw [htyped]
        rfl
      rw [rejects_full kernel hs hb, if_neg hb, ← resume_rejects_iff bs hheld (List.suffix_refl bs), htyped]
    · have htyped : typed (acc ++ [b]) = ⟨stack'.items, (typed acc).overflowed⟩ := by
        rw [typed_concat, Typed.next, hacc, if_neg hfull, hitems]
      have hheld : (typed (acc ++ [b])).held = stack'.items := by rw [htyped]
      rw [rejects_kept kernel hs hb, if_neg hb, ← resume_rejects_iff bs hheld hbs, htyped]

theorem resume_new_rejects_iff (self : Shell) (console : Text) :
    RejectsWhole (resume kernel self console .new console) ↔ Clean (lines [] console) := by
  rw [← rejects_false]
  exact resume_rejects_iff kernel console typed_nil (List.suffix_refl console)

end

/-- **Overlong lines.** The shell rejects overlong lines as a whole exactly when, until it exits, no line that
overflows the buffer holds between 1 and 64 words at its end. -/
theorem repl_rejectsWhole_iff (kernel : Kernel) (self : Shell) (console : Text) :
    RejectsWhole (repl kernel self console).1 ↔ Clean (lines [] console) := by
  rw [repl_eq_resume]
  exact resume_new_rejects_iff kernel self console

/-! ## The end of an overlong line -/

theorem lines_append {l : Text} (h : ∀ b ∈ l, ¬Terminator b) (acc rest : Text) :
    lines acc (l ++ rest) = lines (acc ++ l) rest := by
  induction l generalizing acc with
  | nil => rw [List.nil_append, List.append_nil]
  | cons b l ih =>
    obtain ⟨hb, hl⟩ := List.forall_mem_cons.mp h
    rw [List.cons_append, lines, if_neg hb, ih hl, List.append_assoc]
    rfl

theorem typed_replicate {b : UInt8} (hp : Prints b) :
    ∀ n ≤ 512, typed (List.replicate n b) = ⟨List.replicate n b, false⟩
  | 0, _ => rfl
  | n + 1, hn => by
    have hlen : ¬(Prints b ∧ 512 ≤ (List.replicate n b).length) := by
      rw [List.length_replicate]
      exact fun h => absurd h.2 (Nat.not_le.mpr hn)
    rw [List.replicate_succ', typed_concat, typed_replicate hp n (Nat.le_of_succ_le hn), Typed.next, if_neg hlen]
    dsimp only [edit]
    rw [if_neg hp.not_erases, if_pos hp]

theorem bytes_exit : bytes "exit" = [101, 120, 105, 116] := rfl

/-- One byte more than the buffer holds, and then a command. -/
def overlongLine : Text := List.replicate 513 97 ++ bytes "exit"

theorem typed_overlongLine : typed overlongLine = ⟨bytes "exit", true⟩ := by
  have hfull : typed (List.replicate 513 97) = ⟨[], true⟩ := by
    rw [List.replicate_succ', typed_concat, typed_replicate (by decide) 512 (Nat.le_refl 512), Typed.next]
    exact if_pos ⟨by decide, Nat.le_of_eq (List.length_replicate).symm⟩
  unfold overlongLine typed at *
  rw [List.foldl_append, hfull]
  rfl

def bareKernel : Kernel := ⟨fun _ => .error [], fun _ => .error [], fun ms => .ok ms⟩

theorem overlongLine_not_rejected :
    ¬RejectsWhole (repl bareKernel (new (bytes ">")) (overlongLine ++ [13])).1 := by
  have hexit : ∀ b ∈ bytes "exit", ¬Terminator b := by simp [bytes_exit, Terminator]
  have hterm : ∀ b ∈ overlongLine, ¬Terminator b := by
    intro b hb
    rcases List.mem_append.mp hb with hb | hb
    · rw [List.eq_of_mem_replicate hb]
      decide
    · exact hexit b hb
  rw [repl_eq_resume, resume_new_rejects_iff, lines_append hterm]
  rintro ⟨hover, -⟩
  rw [List.nil_append, typed_overlongLine, bytes_exit] at hover
  exact hover rfl (by decide)

end Shell

end Osymandias
