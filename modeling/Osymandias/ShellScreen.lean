import Osymandias.ShellLines
import Osymandias.ShellListing

/-!
# The line on the screen

`readline` echoes what it keeps: what stands before the cursor is the line that
is held, and an erasure blanks what it takes away.
-/

namespace Osymandias

namespace Shell

open UnixPath

/-! ## The screen -/

structure Screen where
  left : Text
  right : Text

def Screen.blank : Screen := ⟨[], []⟩

def Screen.write (self : Screen) (b : UInt8) : Screen :=
  if b = 8 then
    match self.left.getLast? with
    | some c => ⟨self.left.dropLast, c :: self.right⟩
    | none => self
  else if Prints b then ⟨self.left ++ [b], self.right.tail⟩
  else self

def Screen.display (self : Screen) (out : Text) : Screen := out.foldl Screen.write self

/-- What is held stands before the cursor, and nothing behind it. -/
structure Shows (screen : Screen) (held : Text) : Prop where
  left_eq : screen.left = held
  right_blank : ∀ c ∈ screen.right, c = 32

theorem Shows.echo {screen : Screen} {held : Text} {b : UInt8} {out : Text} (h : Shows screen held)
    (hecho : Echoes held b out) : Shows (screen.display out) (edit held b) := by
  obtain ⟨left, right⟩ := screen
  obtain ⟨hleft, hright⟩ := h
  subst hleft
  unfold edit
  rcases hecho with ⟨herase, rfl⟩ | ⟨herase, hp, rfl⟩ | ⟨herase, hp, rfl⟩
  · rw [if_pos herase]
    rcases List.eq_nil_or_concat left with rfl | ⟨xs, c, rfl⟩
    · exact ⟨rfl, hright⟩
    · -- the last byte is overwritten by the space, between two moves to the left
      rw [if_neg (by simp)]
      refine ⟨by simp [Screen.display, Screen.write, Prints], ?_⟩
      simpa [Screen.display, Screen.write, Prints] using hright
  · rw [if_neg herase, if_pos hp]
    have hb : b ≠ 8 := fun he => herase (.inl he)
    refine ⟨by simp [Screen.display, Screen.write, hb, hp], ?_⟩
    intro c hc
    have hmem : c ∈ right.tail := by simpa [Screen.display, Screen.write, hb, hp] using hc
    exact hright c (List.mem_of_mem_tail hmem)
  · rw [if_neg herase, if_neg hp]
    exact ⟨rfl, hright⟩

theorem display_append (screen : Screen) (out out' : Text) :
    screen.display (out ++ out') = (screen.display out).display out' := List.foldl_append

/-! ## A line that is being read -/

section
variable {cap : Nat}

/-- Where `readline` stands when it has read `bs` and not returned: it holds `stack`, and has
written `out`. -/
def Holding (start : StackVec UInt8 cap) (bs : Text) (stack : StackVec UInt8 cap) (out : Text) : Prop :=
  ∀ rest, BufferedIo.readline start (bs ++ rest) =
    ((BufferedIo.readline stack rest).1, out ++ (BufferedIo.readline stack rest).2)

theorem readline_waiting : ∀ (bs : Text) {stack : StackVec UInt8 cap} {screen : Screen} {out : Text},
    Shows screen stack.items → BufferedIo.readline stack bs = (.waiting, out) →
      ∃ stack', Holding stack bs stack' out ∧ Shows (screen.display out) stack'.items
  | [], stack, screen, out, hshows, h => by
    cases h
    exact ⟨stack, fun rest => rfl, hshows⟩
  | b :: bs, stack, screen, out, hshows, h => by
    rw [readline_key] at h
    rcases keystroke_cases stack b with ⟨-, hkey⟩ | ⟨-, -, hkey⟩ | ⟨-, -, stack₁, out₁, hkey, hitems, hecho⟩
    · rw [hkey] at h
      cases h
    · rw [hkey] at h
      cases h
    · simp only [hkey, Prod.mk.injEq] at h
      obtain ⟨hwait, rfl⟩ := h
      have hshows₁ : Shows (screen.display out₁) stack₁.items := by
        rw [hitems]
        exact hshows.echo hecho
      obtain ⟨stack', hholding, hshows'⟩ := readline_waiting bs hshows₁ (Prod.ext hwait rfl)
      refine ⟨stack', ?_, ?_⟩
      · intro rest
        rw [List.cons_append, readline_key, hkey]
        simp only [hholding rest, List.append_assoc]
      · rw [display_append]
        exact hshows'

theorem readline_ok : ∀ (console : Text) {stack stack' : StackVec UInt8 cap} {rest out : Text},
    BufferedIo.readline stack console = (.returned (.ok stack') rest, out) →
      ∃ bs b, console = bs ++ b :: rest ∧ Terminator b ∧ (∀ c ∈ bs, ¬Terminator c) ∧
        stack'.items = bs.foldl edit stack.items
  | [], _, _, _, _, h => by cases h
  | b :: console, stack, stack', rest, out, h => by
    rw [readline_key] at h
    rcases keystroke_cases stack b with ⟨hterm, hkey⟩ | ⟨-, -, hkey⟩ | ⟨hterm, -, stack₁, out₁, hkey, hitems, -⟩
    · rw [hkey] at h
      cases h
      exact ⟨[], b, rfl, hterm, by simp, rfl⟩
    · rw [hkey] at h
      cases h
    · simp only [hkey, Prod.mk.injEq] at h
      obtain ⟨bs, c, rfl, hc, hbs, hedit⟩ := readline_ok console (Prod.ext h.1 rfl)
      refine ⟨b :: bs, c, rfl, hc, List.forall_mem_cons.mpr ⟨hterm, hbs⟩, ?_⟩
      rw [hedit, hitems, List.foldl_cons]

/-! ## Bytes that are ignored -/

def heard (b : UInt8) : Bool := Terminator b ∨ Erases b ∨ Prints b

/-- What `readline` makes of the console, but for ignored bytes behind the line. -/
def Read.heard : Read cap → Read cap
  | .waiting => .waiting
  | .returned r rest => .returned r (rest.filter Shell.heard)

theorem keystroke_ignored {stack : StackVec UInt8 cap} {b : UInt8} (h : heard b = false) :
    keystroke stack b = (.kept stack, [7]) := by
  obtain ⟨hterm, herase, hp⟩ : ¬Terminator b ∧ ¬Erases b ∧ ¬Prints b := by simpa [heard, not_or] using h
  unfold keystroke
  rw [if_neg hterm, if_neg herase, if_neg hp]

theorem readline_filter : ∀ (console : Text) (stack : StackVec UInt8 cap),
    (BufferedIo.readline stack (console.filter heard)).1 = (BufferedIo.readline stack console).1.heard
  | [], _ => rfl
  | b :: console, stack => by
    have ih : ∀ stack' : StackVec UInt8 cap, _ := readline_filter console
    cases hb : heard b with
    | true =>
      rw [List.filter_cons_of_pos hb, readline_key, readline_key]
      cases hkey : keystroke stack b with
      | mk key out =>
        cases key with
        | kept stack' => exact ih stack'
        | returned r => rfl
    | false =>
      rw [List.filter_cons_of_neg (by simp [hb]), readline_key, keystroke_ignored hb]
      exact ih stack

theorem readline_error : ∀ (console : Text) {stack : StackVec UInt8 cap} {error : Error} {rest : Text},
    (BufferedIo.readline stack console).1 = .returned (.error error) rest → error = .lineTooLong
  | [], _, _, _, h => by cases h
  | b :: console, stack, error, rest, h => by
    rw [readline_key] at h
    rcases keystroke_cases stack b with ⟨-, hkey⟩ | ⟨-, -, hkey⟩ | ⟨-, -, stack₁, out₁, hkey, -, -⟩
    · rw [hkey] at h
      cases h
    · rw [hkey] at h
      cases h
      rfl
    · rw [hkey] at h
      exact readline_error console h

end

/-! ## Errors of commands -/

theorem joinStep_error {other self : Text} {c : Component} {error : Error}
    (h : joinStep other self c = .error error) :
    ∃ message, error = .path other message := by
  cases c with
  | parentDir =>
    cases hp : parent self with
    | none =>
      simp only [joinStep, hp] at h
      cases h
      exact ⟨_, rfl⟩
    | some q =>
      simp only [joinStep, hp] at h
      cases h
  | _ => cases h

theorem canonicalJoin_error_path {self other : Text} {error : Error} (h : canonicalJoin self other = .error error) :
    ∃ message, error = .path other message := by
  unfold canonicalJoin at h
  generalize components other = cs at h
  induction cs generalizing self with
  | nil => cases h
  | cons c cs ih =>
    rw [List.foldlM_cons] at h
    cases hstep : joinStep other self c with
    | ok self' =>
      rw [hstep] at h
      exact ih h
    | error e =>
      rw [hstep] at h
      cases h
      exact joinStep_error hstep

def Decoded {α : Type} (r : Except Error α) : Prop := r ≠ .error .invalidUtf8

theorem decoded_ok {α : Type} (a : α) : Decoded (.ok a : Except Error α) := by
  intro h
  cases h

theorem Decoded.bind {α β : Type} {r : Except Error α} {f : α → Except Error β} (hr : Decoded r)
    (hf : ∀ a, Decoded (f a)) : Decoded (r >>= f) := by
  cases r with
  | error e =>
    intro h
    cases h
    exact hr rfl
  | ok a => exact hf a

theorem canonicalJoin_decoded (self other : Text) : Decoded (canonicalJoin self other) := by
  intro h
  obtain ⟨message, he⟩ := canonicalJoin_error_path h
  cases he

theorem mapM_decoded {f : Text → Except Error Text} (hf : ∀ a, Decoded (f a)) :
    ∀ args : List Text, Decoded (args.mapM f)
  | [] => decoded_ok []
  | arg :: args => by
    rw [List.mapM_cons]
    apply (hf arg).bind
    intro path
    apply (mapM_decoded hf args).bind
    intro paths
    exact decoded_ok (path :: paths)

section
variable (kernel : Kernel) (self : Shell)

theorem list_decoded (path : Text) (showHidden : Bool) : Decoded (list kernel path showHidden).1 := by
  unfold list Decoded
  split <;> simp

theorem listDir_decoded (dir : Text) (showHidden : Bool) : Decoded (listDir self kernel dir showHidden).1 := by
  unfold listDir
  split_ifs
  · exact list_decoded kernel dir showHidden
  · cases hj : canonicalJoin self.cwd dir with
    | error e =>
      intro h
      cases h
      exact canonicalJoin_decoded _ _ hj
    | ok path => exact list_decoded kernel path showHidden

theorem ls_decoded (args : List Text) : Decoded (self.ls kernel args).1 := by
  rcases args with _ | ⟨arg, _ | ⟨dir, _ | ⟨extra, rest⟩⟩⟩
  · exact listDir_decoded kernel self self.cwd false
  · exact listDir_decoded kernel self arg false
  · by_cases ha : arg = flag
    · rw [ha, ls_flag]
      exact listDir_decoded kernel self dir true
    · rw [ls_other ha]
      intro h
      cases h
  · intro h
    cases h

theorem catLines_decoded : ∀ lines, Decoded (catLines lines).1
  | [] => decoded_ok ()
  | .error e :: _ => by
    intro h
    cases h
  | .ok line :: lines => catLines_decoded lines

theorem catFiles_decoded : ∀ paths, Decoded (catFiles kernel paths).1
  | [] => decoded_ok ()
  | path :: paths => by
    unfold catFiles
    split
    · exact catFiles_decoded paths
    · rename_i file _
      have hlines := catLines_decoded file
      split
      · rename_i heq
        rw [heq] at hlines
        exact hlines
      · exact catFiles_decoded paths

theorem cat_decoded (args : List Text) : Decoded (self.cat kernel args).1 := by
  unfold cat
  split_ifs
  · intro h
    cases h
  · have hpaths := mapM_decoded (canonicalJoin_decoded self.cwd) args
    cases hm : args.mapM (canonicalJoin self.cwd) with
    | error e =>
      rw [hm] at hpaths
      intro h
      cases h
      exact hpaths rfl
    | ok paths => exact catFiles_decoded kernel paths

theorem sleep_decoded (args : List Text) : Decoded (sleep kernel args).1 := by
  unfold sleep Decoded
  split
  · split
    · simp
    · split <;> simp
  · simp [usage]

theorem cd_decoded (args : List Text) : Decoded (self.cd kernel args) := by
  rcases args with _ | ⟨arg, _ | ⟨arg', args⟩⟩
  · intro h
    cases h
  · apply (canonicalJoin_decoded self.cwd arg).bind
    intro cwd
    unfold Decoded
    split <;> simp [pure, Except.pure]
  · intro h
    cases h

theorem dispatch_decoded (command : Command) : Decoded (self.dispatch kernel command).1.1 := by
  unfold dispatch
  dsimp only
  split_ifs
  · exact decoded_ok ()
  · unfold pwd Decoded
    split_ifs <;> simp [usage]
  · have hcd := cd_decoded kernel self command.args.tail
    cases h : self.cd kernel command.args.tail with
    | error e =>
      rw [h] at hcd
      intro he
      cases he
      exact hcd rfl
    | ok self' => exact decoded_ok ()
  · exact ls_decoded kernel self _
  · exact cat_decoded kernel self _
  · exact sleep_decoded kernel _
  · intro h
    cases h

theorem evalLine_decoded {line : Text} (hp : Printable line) : Decoded (evalLine kernel self line).1.1 := by
  have hline : Decoded (lineCommand line) := by
    unfold lineCommand
    split_ifs
    · exact decoded_ok none
    · rw [fromUtf8_printable hp]
      simp only [bind, Except.bind, parse_eq]
      split_ifs <;> simp [Decoded, pure, Except.pure]
  unfold evalLine
  split
  · rename_i heq
    rw [heq] at hline
    intro h
    cases h
    exact hline rfl
  · exact decoded_ok _
  · rename_i cmd _
    have hd := dispatch_decoded kernel self cmd
    split_ifs
    · exact decoded_ok _
    · split
      · rename_i heq
        rw [heq] at hd
        intro h
        cases h
        exact hd rfl
      · exact decoded_ok _

end

/-! ## Whole lines -/

theorem readline_ok_printable {cap : Nat} {console rest out : Text} {stack : StackVec UInt8 cap}
    (h : BufferedIo.readline .new console = (.returned (.ok stack) rest, out)) : Printable stack.items := by
  obtain ⟨bs, b, -, -, -, hedit⟩ := readline_ok console h
  rw [hedit]
  exact foldl_edit_printable bs printable_nil

theorem eval_decoded {kernel : Kernel} {self self' : Shell} {console out out' : Text} {turn : Turn}
    (h : self.eval kernel console = (some (turn, self', out'), out)) : turn.status ≠ .error .invalidUtf8 := by
  obtain ⟨e, hr, hs, -⟩ | ⟨stack, hr, hs, -⟩ := eval_cases h
  · rw [hs, readline_error console hr]
    intro he
    cases he
  · rw [hs]
    exact evalLine_decoded kernel self (readline_ok_printable (Prod.ext hr rfl))

/-- **Screen and line.** While `readline` waits, what it holds stands before the cursor and the rest of the line
is blank. The line it returns is what the keys before the terminator come to; it fits, it is printable, so
that `eval` can decode it, and bytes that are neither printable nor edits nor terminators have no part in it. -/
theorem readline_in_step (cap : Nat) :
    (∀ bs out, BufferedIo.readline (.new : StackVec UInt8 cap) bs = (.waiting, out) →
      ∃ stack : StackVec UInt8 cap, Holding .new bs stack out ∧ Shows (Screen.blank.display out) stack.items) ∧
    (∀ console rest out (stack : StackVec UInt8 cap),
      BufferedIo.readline .new console = (.returned (.ok stack) rest, out) →
        stack.items.length ≤ cap ∧ (∀ c ∈ stack.items, 32 ≤ c ∧ c ≤ 126) ∧
        ∃ bs b, console = bs ++ b :: rest ∧ Terminator b ∧ (∀ c ∈ bs, ¬Terminator c) ∧
          stack.items = bs.foldl edit []) ∧
    (∀ console console' : Text, console.filter heard = console'.filter heard →
      (BufferedIo.readline (.new : StackVec UInt8 cap) console).1.heard =
        (BufferedIo.readline (.new : StackVec UInt8 cap) console').1.heard) ∧
    ∀ (kernel : Kernel) (self self' : Shell) (console out out' : Text) (turn : Turn),
      self.eval kernel console = (some (turn, self', out'), out) → turn.status ≠ .error .invalidUtf8 := by
  refine ⟨?_, ?_, ?_, ?_⟩
  · intro bs out h
    exact readline_waiting bs ⟨rfl, by simp [Screen.blank]⟩ h
  · intro console rest out stack h
    exact ⟨stack.length_le, readline_ok_printable h, readline_ok console h⟩
  · intro console console' hsame
    rw [← readline_filter, ← readline_filter, hsame]
  · intro kernel self self' console out out' turn h
    exact eval_decoded h

theorem readline_typed_ab : ∃ stack : StackVec UInt8 2, Holding .new [97, 8, 98] stack [97, 8, 32, 8, 98] ∧
    Shows (Screen.blank.display [97, 8, 32, 8, 98]) stack.items := by
  exact (readline_in_step 2).1 [97, 8, 98] [97, 8, 32, 8, 98] rfl

end Shell

end Osymandias
