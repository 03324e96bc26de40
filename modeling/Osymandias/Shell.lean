import Osymandias.LineEnds
import Osymandias.UnixPath

/-!
# The shell

`shell.rs`. A `&str` or a path is its bytes. The console is the bytes still to be
read, and every function returns the bytes it prints. The file system and the
`sleep` system call are parameters; an `io::Error` is the text it displays as.
-/

namespace Osymandias

open UnixPath

def bytes (s : String) : Text := s.toByteArray.data.toList

def kprint (text : Text) : Text := LineEnds.crlf text

def kprintln (text : Text) : Text := kprint (text ++ [10])

/-! ## Bounded vectors -/

structure StackVec (α : Type) (cap : Nat) where
  items : List α
  length_le : items.length ≤ cap

namespace StackVec

section
variable {α : Type} {cap : Nat}

def new : StackVec α cap := ⟨[], Nat.zero_le cap⟩

def push (self : StackVec α cap) (a : α) : Option (StackVec α cap) :=
  if h : self.items.length < cap then some ⟨self.items ++ [a], by simpa using h⟩ else none

def pop (self : StackVec α cap) : Option α × StackVec α cap :=
  (self.items.getLast?, ⟨self.items.dropLast, by have := self.length_le; simp; omega⟩)

end

end StackVec

structure Shell where
  prompt : Text
  cwd : Text

namespace Shell

def new (prompt : Text) : Shell := ⟨prompt, bytes "/"⟩

inductive Error where
  | empty
  | tooManyArgs
  | invalidArgs (message : String)
  | lineTooLong
  | unknownCommand (command : Text)
  | invalidUtf8
  | io (error : Text)
  | path (path : Text) (message : String)
  | syscall
  deriving DecidableEq

def Error.display : Error → Text
  | .empty => bytes "empty command"
  | .tooManyArgs => bytes "too many arguments"
  | .invalidArgs message => bytes "invalid arguments -- " ++ bytes message
  | .lineTooLong => bytes "line too long"
  | .unknownCommand command => bytes "unknown command -- " ++ command
  | .invalidUtf8 => bytes "invalid utf8"
  | .io error => error
  | .path other message => other ++ bytes ": " ++ bytes message
  | .syscall => bytes "syscall: Error"

/-! ## Paths -/

/-- `while self.pop() {}` -/
def reset (path : Text) : Text := if (pop path).1 then reset (pop path).2 else path
termination_by path.length
decreasing_by exact pop_length_lt ‹_›

def joinStep (other pathbuf : Text) : Component → Except Error Text
  | .rootDir => .ok (reset pathbuf)
  | .parentDir =>
    match parent pathbuf with
    | none => .error (.path other "invalid target directory")
    | some _ => .ok (pop pathbuf).2
  | .curDir => .ok pathbuf
  | .normal normal => .ok (push pathbuf normal)

def canonicalJoin (self other : Text) : Except Error Text := (components other).foldlM (joinStep other) self

/-! ## Commands -/

structure Command where
  args : List Text
  args_ne : args ≠ []

def parseLoop {cap : Nat} : List Text → StackVec Text cap → Except Error (StackVec Text cap)
  | [], args => .ok args
  | arg :: rest, args =>
    match args.push arg with
    | some args' => parseLoop rest args'
    | none => .error .tooManyArgs

def words (s : Text) : List Text := (s.splitOn 32).filter fun a => !a.isEmpty

def Command.parse (cap : Nat) (s : Text) : Except Error Command := do
  let args ← parseLoop (words s) (.new : StackVec Text cap)
  if h : args.items = [] then .error .empty else return ⟨args.items, h⟩

def Command.path (self : Command) : Text := self.args.head self.args_ne

structure Entry where
  hidden : Bool
  text : Text

/-- What the shell calls outside its own file. `open_dir` gives the result of
`entries()`, `open_file` the lines of the file as a `BufReader` returns them. -/
structure Kernel where
  openDir : Text → Except Text (Except Text (List Entry))
  openFile : Text → Except Text (List (Except Text Text))
  sleep : Nat → Except Unit Nat

abbrev Printed (α : Type) := Except Error α × Text

def usage {α : Type} (message : String) : Printed α := (.error (.invalidArgs message), [])

def echo (args : List Text) : Printed Unit := (.ok (), kprintln ((bytes " ").intercalate args))

def pwd (self : Shell) (args : List Text) : Printed Unit :=
  if args.length > 0 then usage "usage: pwd" else (.ok (), kprintln self.cwd)

def cd (kernel : Kernel) (self : Shell) (args : List Text) : Except Error Shell :=
  match args with
  | [arg] => do
    let cwd ← canonicalJoin self.cwd arg
    match kernel.openDir cwd with
    | .error error => .error (.io error)
    | .ok _ => return { self with cwd := cwd }
  | _ => .error (.invalidArgs "usage: cd <directory>")

def list (kernel : Kernel) (path : Text) (showHidden : Bool) : Printed Unit :=
  match kernel.openDir path with
  | .error error => (.error (.io error), [])
  | .ok (.error error) => (.error (.io error), [])
  | .ok (.ok entries) =>
    (.ok (), ((entries.filter fun entry => showHidden || !entry.hidden).map
        fun entry => kprintln entry.text).flatten)

def ls (kernel : Kernel) (self : Shell) (args : List Text) : Printed Unit :=
  let resolve (path : Text) (showHidden : Bool) : Printed Unit :=
    if isAbsolute path then list kernel path showHidden
    else match canonicalJoin self.cwd path with
      | .error error => (.error error, [])
      | .ok path => list kernel path showHidden
  match args with
  | [] => resolve self.cwd false
  | [path] => resolve path false
  | [flag, path] => if flag ≠ bytes "-a" then usage "usage: ls [-a] [directory]" else resolve path true
  | _ => usage "usage: ls [-a] [directory]"

def catLines : List (Except Text Text) → Printed Unit
  | [] => (.ok (), [])
  | .error error :: _ => (.error (.io error), [])
  | .ok line :: lines =>
    let (r, out) := catLines lines
    (r, kprintln line ++ out)

/-- A file that cannot be opened is reported and skipped; one that cannot be read ends the command. -/
def catFiles (kernel : Kernel) : List Text → Printed Unit
  | [] => (.ok (), [])
  | path :: paths =>
    match kernel.openFile path with
    | .error error =>
      let (r, out) := catFiles kernel paths
      (r, kprintln (path ++ bytes ": " ++ error) ++ out)
    | .ok file =>
      match catLines file with
      | (.error error, out) => (.error error, out)
      | (.ok (), out) =>
        let (r, out') := catFiles kernel paths
        (r, out ++ out')

def cat (kernel : Kernel) (self : Shell) (args : List Text) : Printed Unit :=
  if args.length = 0 then usage "usage: cat <file> [file].."
  else match args.mapM (canonicalJoin self.cwd) with
    | .error error => (.error error, [])
    | .ok paths => catFiles kernel paths

/-- `u32::from_str`: an optional `+` and then at least one decimal digit. -/
def u32FromStr (s : Text) : Option Nat :=
  let digits := if s.head? = some 43 then s.tail else s
  if digits = [] then none
  else digits.foldlM (fun n b => if 48 ≤ b ∧ b ≤ 57 ∧ 10 * n + (b.toNat - 48) < 2 ^ 32
    then some (10 * n + (b.toNat - 48)) else none) 0

def sleep (kernel : Kernel) (args : List Text) : Printed Unit :=
  match args with
  | [arg] =>
    match u32FromStr arg with
    | none => (.error (.invalidArgs "invalid u32"), [])
    | some ms =>
      match kernel.sleep ms with
      | .error _ => (.error .syscall, [])
      | .ok _ => (.ok (), [])
  | _ => usage "usage: sleep <duration>"

def dispatch (kernel : Kernel) (self : Shell) (command : Command) : Printed Unit × Shell :=
  let args := command.args.tail
  let path := command.path
  if path = bytes "echo" then (echo args, self)
  else if path = bytes "pwd" then (self.pwd args, self)
  else if path = bytes "cd" then
    match self.cd kernel args with
    | .error error => ((.error error, []), self)
    | .ok self' => ((.ok (), []), self')
  else if path = bytes "ls" then (self.ls kernel args, self)
  else if path = bytes "cat" then (self.cat kernel args, self)
  else if path = bytes "sleep" then (sleep kernel args, self)
  else ((.error (.unknownCommand path), []), self)

/-! ## Lines -/

inductive Read (cap : Nat) where
  | waiting
  | returned (r : Except Error (StackVec UInt8 cap)) (rest : Text)

namespace BufferedIo

variable {cap : Nat}

def push (stack : StackVec UInt8 cap) (b : UInt8) : Except Error (StackVec UInt8 cap) :=
  match stack.push b with
  | some stack' => .ok stack'
  | none => .error .lineTooLong

/-- The loop of `readline`, from a line that holds `lineStack` so far. It waits when
the console has no byte for it. -/
def readline (lineStack : StackVec UInt8 cap) : Text → Read cap × Text
  | [] => (.waiting, [])
  | b :: console =>
    if b = 13 ∨ b = 10 then (.returned (.ok lineStack) console, [13, 10])
    else if b = 8 ∨ b = 127 then
      match lineStack.pop with
      | (some _, lineStack') =>
        let (r, out) := readline lineStack' console
        (r, [8, 32, 8] ++ out)
      | (none, lineStack') => readline lineStack' console
    else if 32 ≤ b ∧ b ≤ 126 then
      match push lineStack b with
      | .error error => (.returned (.error error) console, [b])
      | .ok lineStack' =>
        let (r, out) := readline lineStack' console
        (r, b :: out)
    else
      let (r, out) := readline lineStack console
      (r, 7 :: out)

end BufferedIo

def fromUtf8 (line : Text) : Except Error Text :=
  if ByteArray.IsValidUTF8 ⟨line.toArray⟩ then .ok line else .error .invalidUtf8

/-! ## Evaluation -/

inductive EvalStatus where
  | continue
  | terminate
  deriving DecidableEq

def lineCommand (line : Text) : Except Error (Option Command) :=
  if line.length = 0 then .ok none
  else do
    let cmdStr ← fromUtf8 line
    let cmd ← Command.parse 64 cmdStr
    return some cmd

/-- One `eval` that returned: the console before it, what `readline` made of the
line, the console after it, and its result. -/
structure Turn where
  before : Text
  line : Except Error Text
  after : Text
  status : Except Error EvalStatus

def evalLine (kernel : Kernel) (self : Shell) (line : Text) : Printed EvalStatus × Shell :=
  match lineCommand line with
  | .error error => ((.error error, []), self)
  | .ok none => ((.ok .continue, []), self)
  | .ok (some cmd) =>
    if cmd.path = bytes "exit" then ((.ok .terminate, []), self)
    else match self.dispatch kernel cmd with
      | ((.error error, out), self') => ((.error error, out), self')
      | ((.ok (), out), self') => ((.ok .continue, out), self')

def finish (kernel : Kernel) (self : Shell) (before : Text) : Read 512 → Option (Turn × Shell × Text)
  | .waiting => none
  | .returned (.error error) rest => some (⟨before, .error error, rest, .error error⟩, self, [])
  | .returned (.ok stack) rest =>
    let ((status, out), self') := evalLine kernel self stack.items
    some (⟨before, .ok stack.items, rest, status⟩, self', out)

def eval (kernel : Kernel) (self : Shell) (console : Text) : Option (Turn × Shell × Text) × Text :=
  let (r, out) := BufferedIo.readline .new console
  (finish kernel self console r, out)

theorem readline_rest_lt {cap : Nat} {r : Except Error (StackVec UInt8 cap)} {rest : Text} :
    ∀ (console : Text) (stack : StackVec UInt8 cap), (BufferedIo.readline stack console).1 = .returned r rest →
      rest.length < console.length
  | [], _, h => by cases h
  | b :: console, stack, h => by
    have ih : ∀ stack', (BufferedIo.readline stack' console).1 = .returned r rest → rest.length < console.length :=
      fun stack' => readline_rest_lt console stack'
    unfold BufferedIo.readline at h
    rw [List.length_cons]
    split_ifs at h
    · cases h
      exact Nat.lt_succ_self _
    · split at h
      · exact Nat.lt_succ_of_lt (ih _ h)
      · exact Nat.lt_succ_of_lt (ih _ h)
    · split at h
      · cases h
        exact Nat.lt_succ_self _
      · exact Nat.lt_succ_of_lt (ih _ h)
    · exact Nat.lt_succ_of_lt (ih _ h)

section
variable {kernel : Kernel} {self self' : Shell} {console out out' : Text} {turn : Turn}

/-- What a turn can do. `readline` failed, and nothing happened; or it returned a line, which was evaluated. -/
theorem eval_cases (h : self.eval kernel console = (some (turn, self', out'), out)) :
    (∃ e, (BufferedIo.readline (.new : StackVec UInt8 512) console).1 = .returned (.error e) turn.after ∧
      turn.status = .error e ∧ self' = self) ∨
    ∃ stack : StackVec UInt8 512, (BufferedIo.readline .new console).1 = .returned (.ok stack) turn.after ∧
      turn.status = (evalLine kernel self stack.items).1.1 ∧ self' = (evalLine kernel self stack.items).2 := by
  have hf : finish kernel self console (BufferedIo.readline .new console).1 = some (turn, self', out') :=
    congrArg Prod.fst h
  cases hr : (BufferedIo.readline (.new : StackVec UInt8 512) console).1 with
  | waiting =>
    rw [hr] at hf
    cases hf
  | returned r rest =>
    rw [hr] at hf
    cases r with
    | error e =>
      cases hf
      exact .inl ⟨e, rfl, rfl, rfl⟩
    | ok stack =>
      cases hf
      exact .inr ⟨stack, rfl, rfl, rfl⟩

theorem eval_after_lt (h : self.eval kernel console = (some (turn, self', out'), out)) :
    turn.after.length < console.length := by
  obtain ⟨e, hr, -⟩ | ⟨stack, hr, -⟩ := eval_cases h
  · exact readline_rest_lt console _ hr
  · exact readline_rest_lt console _ hr

end

def Turn.terminates (turn : Turn) : Bool :=
  match turn.status with
  | .ok .terminate => true
  | _ => false

def Turn.report (turn : Turn) : Text :=
  match turn.status with
  | .error error => kprintln error.display
  | .ok _ => []

/-- The turns of the loop of `repl`, until the shell terminates or waits for input. -/
def repl (kernel : Kernel) (self : Shell) (console : Text) : List Turn × Text :=
  let prompt := kprint (bytes "[" ++ self.cwd ++ bytes "] " ++ self.prompt ++ bytes " ")
  match _h : self.eval kernel console with
  | (none, out) => ([], prompt ++ out)
  | (some (turn, self', out'), out) =>
    if turn.terminates then ([turn], prompt ++ out ++ out')
    else
      let (turns, rest) := repl kernel self' turn.after
      (turn :: turns, prompt ++ out ++ out' ++ turn.report ++ rest)
termination_by console.length
decreasing_by exact eval_after_lt _h

end Shell

end Osymandias
