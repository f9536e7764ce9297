import UnixTasks.Lib.CChar

/-!
# bizzbuzz.c: transfer

`transfer` reads the file `fd1` one byte at a time and writes `fd2`.  Its locals, the read offset of `fd1` and what has
been written to `fd2` are one record; `if` statements are functions on it, in the order of the source.  A word that is
neither bizz nor buzz is written by going back to its first byte and copying it.
-/

namespace UnixTasks.BizzBuzz

open CChar

structure Transfer where
  /-- The read offset of `fd1`. -/
  offset : Nat
  /-- How many bytes `read` has returned so far. -/
  bytesRead : Nat
  /-- What has been written to `fd2`. -/
  out : List CChar
  cur : CChar
  buf : CChar
  i : Int
  lastSp : Int
  summa : Int
  flag : Bool
  deriving DecidableEq, Repr

namespace Transfer

/-- `-`, as an `int`. -/
def minus : Int := 45

def bizz : List CChar := ['b', 'i', 'z', 'z'].map chr

def buzz : List CChar := ['b', 'u', 'z', 'z'].map chr

/-- The initialisers, and `i = 0` of the loop. -/
def start : Transfer := ⟨0, 0, [], 0, 0, 0, -1, 0, false⟩

/-- `write(fd2, s, |s|)`. -/
def write (t : Transfer) (s : List CChar) : Transfer := { t with out := t.out ++ s }

/-- `read(fd1, &cur, 1)`; at the end of the file `cur` stays as it is. -/
def read (file : List CChar) (t : Transfer) : Transfer :=
  match file[t.offset]? with
  | some c => { t with cur := c, offset := t.offset + 1, bytesRead := t.bytesRead + 1 }
  | none => t

/-- The first `if`: `cur` cannot belong to a number. -/
def testFlag (t : Transfer) : Transfer :=
  if (!isspace t.cur && (t.cur.toInt != minus || (t.i != t.lastSp + 1 && t.i != 0)) &&
      (decide (t.cur.toInt < 48) || decide (57 < t.cur.toInt))) || (t.buf.toInt == minus && isspace t.cur) then
    { t with flag := true }
  else t

/-- The second `if`: `cur` is added to the sum modulo 3. -/
def addDigit (t : Transfer) : Transfer :=
  if !isspace t.cur && t.cur.toInt != minus then
    { t with buf := t.cur, summa := (t.summa + t.cur.toInt - 48).tmod 3 }
  else t

def writeBizz (t : Transfer) : Transfer :=
  if t.summa.tmod 3 = 0 ∧ t.flag = false then { t.write bizz with flag := false, summa := 0 } else t

def writeBuzz (t : Transfer) : Transfer :=
  if (t.buf.toInt - 48).tmod 5 = 0 ∧ t.flag = false then { t.write buzz with flag := false, summa := 0 } else t

/-- `for (...; read(fd1, &cur, 1); i++)`, on what is left of the file from the read offset. -/
def copyLoop (len : Int) : List CChar → Transfer → Transfer
  | [], t => t
  | c :: rest, t =>
    let t := { t with cur := c, offset := t.offset + 1, bytesRead := t.bytesRead + 1 }
    if isspace t.cur && t.i != t.lastSp then t
    else
      let t := t.write [t.cur]
      if t.i = len - 1 then t else copyLoop len rest { t with i := t.i + 1 }

/-- The branch that goes back to the start of the word and copies it. -/
def copyWord (file : List CChar) (len : Int) (t : Transfer) : Transfer :=
  if t.flag = true ∨ t.summa ≠ 0 then
    let t := { t with i := t.lastSp, cur := 0, summa := 0 }
    let t := { t with offset := (t.lastSp + 1).toNat }
    let t := copyLoop len (file.drop t.offset) { t with i := t.i + 1 }
    { t with flag := false }
  else t

/-- The third `if`: `cur` ends a word. -/
def endWord (file : List CChar) (len : Int) (t : Transfer) : Transfer :=
  if isspace t.cur && t.i != t.lastSp && t.i != 0 && !isspace t.buf then
    let t := t.writeBizz.writeBuzz.copyWord file len
    { t with buf := t.cur, lastSp := t.i }
  else t

/-- The last `if`. -/
def writeSpace (t : Transfer) : Transfer :=
  if isspace t.cur then { t.write [t.cur] with lastSp := t.i } else t

/-- The body of the loop. -/
def body (file : List CChar) (len : Int) (t : Transfer) : Transfer :=
  let t := (((t.read file).testFlag.addDigit).endWord file len).writeSpace
  { t with buf := t.cur }

/-- The loop, for at most `fuel` tests of its condition. -/
def loop (file : List CChar) (len : Int) : Nat → Transfer → Option Transfer
  | 0, _ => none
  | fuel + 1, t =>
    if t.i < len then
      let t := t.body file len
      loop file len fuel { t with i := t.i + 1 }
    else some t

end Transfer

/-- `transfer(fd1, fd2, len)`, where `fd1` is a file with the given bytes. -/
def transfer (fuel : Nat) (file : List CChar) (len : Int) : Option Transfer := Transfer.loop file len fuel .start

end UnixTasks.BizzBuzz
