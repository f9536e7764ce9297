import UnixTasks.Lib.Scan
import UnixTasks.ShStack.Generations

/-!
# main.c: the test program

The test program reads instructions from a file or from its standard input and makes the calls of stack.c that they
ask for.  Of a word it looks at one or two letters, and words that it does not know are skipped.

What it does where C leaves it undefined is `none`: it writes behind the memory that it has, reads an array before
anything has been stored there, or uses the stack after `detach_stack`.  The words are stored in what `malloc(10)`
gives, from which on the process can write `room` bytes.  A string that is pushed is named by its number: `malloc` gives
it an address of its own.  After a `set_wait` with 0 a call that has to wait never returns, and there is no result.

* (`handler`, `main`) the program;
* (`Instr`, `meaning`) what the instructions mean for a bounded last-in-first-out list;
* (`Written`) the words in which a script may be written.
-/

namespace UnixTasks.ShStack

open ActionSystem CString CChar Tokens

variable {P V : Type}

/-! ### The program -/

/-- What the program prints, and what `push`, `pop`, `print_all` and `mark_destruct` do. -/
inductive Line where
  | enterSize
  | attached
  | notAttached
  | help
  | size (n : Int)
  | count (n : Int)
  | pushed (val : Nat) (text : List CChar)
  | overflowed (val : Nat) (text : List CChar)
  | waitsFull (timeout : Timespec)
  | waitsEmpty (timeout : Timespec)
  | timeoutEnded
  | popped (val : Nat)
  | empty
  | all (size count : Int) (vals : List Nat)
  | detached
  | destructed (ret : Int)
  | finished
  deriving DecidableEq, Repr

/-- The process that runs the program: the world of the stack, the rest of the file, how many strings it has read for
`push`, and its output. -/
structure Program (P : Type) where
  world : World P Nat
  input : List CChar
  vals : Nat
  out : List Line

/-- `word[i]` of a word that `fscanf` has stored; what is behind its NUL is not known. -/
def letter (word : List CChar) (i : Nat) : Option CChar := (word ++ [0])[i]?

/-- How long a call on a full or an empty stack sleeps; `none` if it returns at once. -/
def StackT.waiting (stack : StackT) : Option Timespec := if stack.wait = 1 then some stack.timeout else none

/-- What is printed before and after the sleep. -/
def waitLines (line : Timespec → Line) : Option Timespec → List Line
  | some timeout => [line timeout, .timeoutEnded]
  | none => []

section Handler

variable [DecidableEq P] (room fuel : Nat) (p : P)

/-- A call of stack.c, with its result. -/
def World.call (w : World P Nat) (op : Op Nat) : Option (World P Nat × Ret Nat) :=
  (w.use fuel (p, .call op)).bind fun w =>
    match w.log.getLast? with
    | some (_, .call r) => some (w, r)
    | _ => none

/-- What `push` and `pop` print. -/
def World.waitLines (w : World P Nat) (op : Op Nat) : List Line :=
  match (w.proc p).stack, op with
  | some stack, .push _ =>
    if w.kernel.getval stack.sem 1 = w.kernel.getval stack.sem 0 then ShStack.waitLines .waitsFull stack.waiting else []
  | some stack, .pop => if w.kernel.getval stack.sem 1 = 0 then ShStack.waitLines .waitsEmpty stack.waiting else []
  | _, _ => []

/-- A call, with what it prints itself and what is printed about its result. -/
def Program.call (s : Program P) (op : Op Nat) (lines : Ret Nat → List Line) : Option (Program P × Bool) :=
  (World.call fuel p s.world op).map fun (w, r) =>
    ({ s with world := w, out := s.out ++ s.world.waitLines p op ++ lines r }, false)

/-- What is printed about a `get_size`. -/
def sizeLines : Ret Nat → List Line
  | .getSize n => [.size n]
  | _ => []

/-- What is printed about a `get_count`. -/
def countLines : Ret Nat → List Line
  | .getCount n => [.count n]
  | _ => []

/-- What is printed about a `push`. -/
def pushLines (text : List CChar) : Ret Nat → List Line
  | .push val ret => (if ret = 0 then [.pushed val text] else []) ++ (if ret = -1 then [.overflowed val text] else [])
  | _ => []

/-- What is printed about a `pop`. -/
def popLines : Ret Nat → List Line
  | .pop out ret => (if ret = 0 then (out.map Line.popped).toList else []) ++ (if ret = -1 then [.empty] else [])
  | _ => []

/-- What `print_all` prints. -/
def World.printed (w : World P Nat) : Option Line :=
  (w.proc p).stack.bind fun stack =>
    let size := w.kernel.getval stack.sem 0
    let count := w.kernel.getval stack.sem 1
    ((List.range count.toNat).mapM fun i : Nat => w.kernel.load stack.shStack i).map (.all size count ·)

def Program.getter (s : Program P) (instr : List CChar) : Option (Program P × Bool) :=
  (letter instr 4).bind fun c =>
    if c = chr 's' then s.call fuel p .getSize sizeLines
    else if c = chr 'c' then s.call fuel p .getCount countLines
    else some (s, false)

/-- `wait` is 0 where no number follows. -/
def Program.setter (s : Program P) : Option (Program P × Bool) :=
  let (wait, input) := scanInt s.input
  let wait := wait.getD 0
  if wait = 1 then
    let (sec, input) := scanInt input
    match sec, scanInt input with
    | some sec, (some nsec, input) =>
      ({ s with input := input } : Program P).call fuel p (.setWait wait ⟨sec, nsec⟩) fun _ => []
    | _, _ => none
  else if wait = 0 ∨ wait = -1 then
    ({ s with input := input } : Program P).call fuel p (.setWait wait ⟨0, 0⟩) fun _ => []
  else some ({ s with input := input }, false)

def Program.pusher (s : Program P) : Option (Program P × Bool) :=
  match scanWord s.input with
  | some (text, input) =>
    if text.length < room then
      ({ s with input := input, vals := s.vals + 1 } : Program P).call fuel p (.push s.vals) (pushLines text)
    else none
  | none => none

def Program.popper (s : Program P) : Option (Program P × Bool) :=
  s.call fuel p .pop popLines

def Program.printer (s : Program P) : Option (Program P × Bool) :=
  (World.printed p s.world).bind fun line => s.call fuel p .printAll fun _ => [line]

def Program.detacher (s : Program P) : Option (Program P × Bool) :=
  (s.world.use fuel (p, .detach)).map fun w => ({ s with world := w, out := s.out ++ [.detached] }, false)

def Program.destroyer (s : Program P) : Option (Program P × Bool) :=
  (s.world.use fuel (p, .destruct)).map fun w => ({ s with
    world := w
    out := s.out ++ (w.log.getLast?.map fun
      | (_, .destruct ret) => Line.destructed ret
      | _ => .destructed (-1)).toList }, true)

/-- What `handler` does for a word; the program is to end when it returns 1. -/
def dispatch (instr : List CChar) (s : Program P) : Option (Program P × Bool) :=
  if instr.head? = some (chr 'f') then some (s, true)
  else if instr.head? = some (chr 'g') then s.getter fuel p instr
  else if instr.head? = some (chr 's') then s.setter fuel p
  else if instr.head? = some (chr 'p') then
    (letter instr 1).bind fun c =>
      if c = chr 'u' then s.pusher room fuel p
      else if c = chr 'o' then s.popper fuel p
      else if c = chr 'r' then s.printer fuel p
      else some (s, false)
  else if instr.head? = some (chr 'd') then s.detacher fuel p
  else if instr.head? = some (chr 'm') then s.destroyer fuel p
  else some (s, false)

/-- `handler(fd)`. -/
def handler (s : Program P) : Option (Program P × Bool) :=
  (scanWord s.input).bind fun (instr, input) =>
    if room ≤ instr.length then none else dispatch room fuel p instr { s with input := input }

/-- `while (1)`: the output up to the end of the program. -/
def rounds : Nat → Program P → Option (List Line)
  | 0, _ => none
  | n + 1, s =>
    match handler room fuel p s with
    | some (s, true) => some (s.out ++ [.finished])
    | some (s, false) => rounds n s
    | none => none

/-- `main` with a file. -/
def main (n : Nat) (w : World P Nat) (text : List CChar) : Option (List Line) :=
  let (size, input) := scanInt text
  (World.call fuel p w (.attach (size.getD 0))).bind fun
    | (w, .attach true) => rounds room fuel p n ⟨w, input, 0, [.attached]⟩
    | (_, _) => some [.notAttached]

/-- `main` without arguments; `size` is read in any case. -/
def mainStdin (n : Nat) (w : World P Nat) (text : List CChar) : Option (List Line) :=
  match scanInt text with
  | (some size, input) =>
    (World.call fuel p w (.attach size)).bind fun
      | (w, .attach true) =>
        (Program.printer fuel p ⟨w, input, 0, [.enterSize, .attached]⟩).bind fun (s, _) =>
          rounds room fuel p n { s with out := s.out ++ [.help] }
      | (_, _) => some [.enterSize, .notAttached]
  | (none, _) => none

end Handler

/-! ### What a script means -/

/-- The instructions; a `set_wait` with 0 makes the next call on a full or an empty stack wait for ever. -/
inductive Instr where
  | getSize
  | getCount
  | push (text : List CChar)
  | pop
  | printAll
  | setWait (val : Int)
  | setTimeout (sec nsec : Int)
  | skip
  deriving DecidableEq, Repr

/-- How a script ends. -/
inductive End where
  | finish
  | destruct
  | detach
  deriving DecidableEq, Repr

/-- What an instruction finds: the list, how many strings have been read for `push`, and how long a call on a full or an
empty stack waits. -/
structure View where
  list : Lifo Nat
  vals : Nat
  timeout : Option Timespec

/-- What an instruction does, and its output. -/
def Instr.run (v : View) : Instr → View × List Line
  | .getSize => (v, [.size v.list.cap])
  | .getCount => (v, [.count v.list.items.length])
  | .push text =>
    match v.list.push? v.vals with
    | some l => (⟨l, v.vals + 1, v.timeout⟩, [.pushed v.vals text])
    | none => (⟨v.list, v.vals + 1, v.timeout⟩, waitLines .waitsFull v.timeout ++ [.overflowed v.vals text])
  | .pop =>
    match v.list.pop? with
    | some (x, l) => (⟨l, v.vals, v.timeout⟩, [.popped x])
    | none => (v, waitLines .waitsEmpty v.timeout ++ [.empty])
  | .printAll => (v, [.all v.list.cap v.list.items.length v.list.items.reverse])
  | .setWait val => (if val = -1 then ⟨v.list, v.vals, none⟩ else v, [])
  | .setTimeout sec nsec => (⟨v.list, v.vals, some ⟨sec, nsec⟩⟩, [])
  | .skip => (v, [])

/-- The output of a script. -/
def meaning (v : View) : List Instr → End → List Line
  | [], .finish => [.finished]
  | [], .destruct => [.destructed 0, .finished]
  | [], .detach => [.detached, .finished]
  | i :: body, e => (i.run v).2 ++ meaning (i.run v).1 body e

/-- The letters by which an instruction is known. -/
def Instr.Known (word : List CChar) : Instr → Prop
  | .getSize => word.head? = some (chr 'g') ∧ word[4]? = some (chr 's')
  | .getCount => word.head? = some (chr 'g') ∧ word[4]? = some (chr 'c')
  | .push _ => word.head? = some (chr 'p') ∧ word[1]? = some (chr 'u')
  | .pop => word.head? = some (chr 'p') ∧ word[1]? = some (chr 'o')
  | .printAll => word.head? = some (chr 'p') ∧ word[1]? = some (chr 'r')
  | .setWait _ | .setTimeout _ _ => word.head? = some (chr 's')
  | .skip => ∀ c ∈ ['f', 'g', 's', 'p', 'd', 'm'], word.head? ≠ some (chr c)

/-- What an `int` can be. -/
def FitsInt (z : Int) : Prop := -2 ^ 31 ≤ z ∧ z < 2 ^ 31

/-- The arguments fit the arrays and the `int`s of the program. -/
def Instr.Fits (room : Nat) : Instr → Prop
  | .push text => text.length < room
  | .setWait val => FitsInt val ∧ val ≠ 0 ∧ val ≠ 1
  | .setTimeout sec nsec => FitsInt sec ∧ FitsInt nsec
  | _ => True

def Instr.args : Instr → List (List CChar)
  | .push text => [text]
  | .setWait val => [intText val]
  | .setTimeout sec nsec => [intText 1, intText sec, intText nsec]
  | _ => []

/-- The script is written in these words, perhaps with more behind its end. -/
inductive Written (room : Nat) : List Instr → End → List (List CChar) → Prop
  | finish {word : List CChar} (hlen : word.length < room) (hword : word.head? = some (chr 'f'))
      (more : List (List CChar)) : Written room [] .finish (word :: more)
  | destruct {word : List CChar} (hlen : word.length < room) (hword : word.head? = some (chr 'm'))
      (more : List (List CChar)) : Written room [] .destruct (word :: more)
  | detach {word word' : List CChar} (hlen : word.length < room) (hword : word.head? = some (chr 'd'))
      (hlen' : word'.length < room) (hword' : word'.head? = some (chr 'f')) (more : List (List CChar)) :
      Written room [] .detach (word :: word' :: more)
  | instr {i : Instr} {word : List CChar} {body : List Instr} {e : End} {words : List (List CChar)}
      (hlen : word.length < room) (hword : i.Known word) (hfits : i.Fits room) (h : Written room body e words) :
      Written room (i :: body) e (word :: (i.args ++ words))

end UnixTasks.ShStack
