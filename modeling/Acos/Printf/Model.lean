import Acos.Lib.CString

/-!
# `printf` of the user libraries

The `printf` of the alarm tree, and that of the date tree, which knows a width after `%0`. A store
of `printint` outside of its buffer has no result. The arguments are the words on the stack behind
the format, and a string argument is read from the memory up to a zero.
-/

namespace Acos.Printf

open CString

abbrev Word := BitVec 32

abbrev Args := Nat → Word

abbrev Memory := Word → Byte

inductive Stop where
  /-- A store outside of `buf`. -/
  | outside
  /-- There is no zero in the memory. -/
  | endless
  deriving DecidableEq

structure State where
  /-- The bytes written to the descriptor. -/
  out : List Byte
  /-- How many arguments have been taken. -/
  ap : Nat
  deriving DecidableEq

abbrev Result := Except (Stop × State) State

def State.putc (st : State) (c : Byte) : State := { st with out := st.out ++ [c] }

/-- A text is written, and it has taken an argument. -/
def State.print (st : State) (text : List Byte) : State := ⟨st.out ++ text, st.ap + 1⟩

/-! ### Numbers

The buffer is the list of what has been stored, the last byte first, which is the order in which
the bytes are written. `room` is what is left of its 16 bytes. -/

def bufSize : Nat := 16

def isNeg (xx : Word) (sgn : Bool) : Bool := sgn && xx.msb

/-- The `uint` that is printed. -/
def magnitude (xx : Word) (sgn : Bool) : Word := if isNeg xx sgn then -xx else xx

def digits : List Byte := "0123456789ABCDEF".toUTF8.toList

def putDigits (base : Nat) : Nat → Nat → List Byte → Except Stop (List Byte)
  | 0, _, _ => .error .outside
  | room + 1, x, buf =>
      let buf := digits.getD (x % base) 0 :: buf
      if x / base ≠ 0 then putDigits base room (x / base) buf else .ok buf

def putZeros (limit : Int) : Nat → List Byte → Except Stop (List Byte)
  | 0, buf => if (buf.length : Int) < limit then .error .outside else .ok buf
  | room + 1, buf =>
      if (buf.length : Int) < limit then putZeros limit room ('0'.toUInt8 :: buf) else .ok buf

def putSign (neg : Bool) (buf : List Byte) : Except Stop (List Byte) :=
  if neg then
    if buf.length < bufSize then .ok ('-'.toUInt8 :: buf) else .error .outside
  else .ok buf

def Alarm.printint (xx : Word) (base : Nat) (sgn : Bool) : Except Stop (List Byte) := do
  let buf ← putDigits base bufSize (magnitude xx sgn).toNat []
  putSign (isNeg xx sgn) buf

def Date.printint (xx : Word) (base : Nat) (sgn : Bool) (len : Word) :
    Except Stop (List Byte) := do
  let buf ← putDigits base bufSize (magnitude xx sgn).toNat []
  let buf ← putZeros (len - if isNeg xx sgn then 1 else 0).toInt (bufSize - buf.length) buf
  putSign (isNeg xx sgn) buf

/-- The digits at the beginning, how many they are and the number after them. -/
def readint : List Byte → Word → Nat × Word
  | [], l => (0, l)
  | c :: fmt, l =>
      if isdigit c then
        let (i, l) := readint fmt (l * 10 + BitVec.ofNat 32 c.toNat - 48)
        (i + 1, l)
      else (0, l)

/-! ### Conversions -/

def readString (mem : Memory) (s : Word) : Nat → Option (List Byte)
  | 0 => none
  | n + 1 =>
      if mem s = 0 then some [] else (readString mem (s + 1) n).map fun text => mem s :: text

/-- The argument of `%s`. -/
def string (mem : Memory) (s : Word) : Option (List Byte) :=
  if s = 0 then some "(null)".toUTF8.toList else readString mem s (2 ^ 32)

section Conversions

variable (mem : Memory) (args : Args)

def printNumber (st : State) (number : Except Stop (List Byte)) : Result :=
  match number with
  | .ok text => .ok (st.print text)
  | .error stop => .error (stop, st)

/-- The character after `%`. -/
def convert (printint : Word → Nat → Bool → Except Stop (List Byte)) (c : Byte) (st : State) :
    Result :=
  if c = 'd'.toUInt8 then printNumber st (printint (args st.ap) 10 true)
  else if c = 'x'.toUInt8 ∨ c = 'p'.toUInt8 then
    printNumber st (printint (args st.ap) 16 false)
  else if c = 's'.toUInt8 then
    match string mem (args st.ap) with
    | some text => .ok (st.print text)
    | none => .error (.endless, st)
  else if c = 'c'.toUInt8 then .ok (st.print [UInt8.ofNat (args st.ap).toNat])
  else if c = '%'.toUInt8 then .ok (st.putc c)
  else .ok ((st.putc '%'.toUInt8).putc c)

/-- The loop of the alarm tree. `percent` says that `state` is `'%'`. -/
def Alarm.scan : List Byte → Bool → State → Result
  | [], _, st => .ok st
  | c :: fmt, percent, st =>
      if c = 0 then .ok st
      else if percent then do
        let st ← convert mem args Alarm.printint c st
        Alarm.scan fmt false st
      else if c = '%'.toUInt8 then Alarm.scan fmt true st
      else Alarm.scan fmt false (st.putc c)

def Alarm.printf (fmt : List Byte) : Result := Alarm.scan mem args fmt false ⟨[], 0⟩

/-- The loop of the date tree. The index jumps over `skip` characters. -/
def Date.scan : List Byte → Nat → Bool → Word → State → Result
  | [], _, _, _, st => .ok st
  | _ :: fmt, skip + 1, percent, len, st => Date.scan fmt skip percent len st
  | c :: fmt, 0, percent, len, st =>
      if c = 0 then .ok st
      else if percent then
        if c = '0'.toUInt8 then
          let (i, len) := readint fmt len
          Date.scan fmt i true len st
        else do
          let st ← convert mem args (Date.printint · · · len) c st
          Date.scan fmt 0 false len st
      else if c = '%'.toUInt8 then Date.scan fmt 0 true 0 st
      else Date.scan fmt 0 false len (st.putc c)

/-- The loop starts with a `len` that has no value yet. -/
def Date.printf (len : Word) (fmt : List Byte) : Result :=
  Date.scan mem args fmt 0 false len ⟨[], 0⟩

end Conversions

end Acos.Printf
