import Aveo.Lib.Memory
import Aveo.Queue.Command

/-!
# The arguments of a call

`CallArgs` and the argument classes of `CallArgs.cpp`. An argument is a scalar or a buffer that is passed on the
stack of the callee. `getStackImage` lays out the stack: 176 bytes for the register save area, a parameter area
with a word for each argument, then the buffers, each padded to a multiple of 8 bytes.
-/

namespace Aveo

open Lib

/-- The integral types that arguments can have. -/
inductive IntType
  | int8
  | uint8
  | int16
  | uint16
  | int32
  | uint32
  | int64
  | uint64
  deriving DecidableEq, Repr

namespace IntType

def size : IntType → Nat
  | .int8 | .uint8 => 1
  | .int16 | .uint16 => 2
  | .int32 | .uint32 => 4
  | .int64 | .uint64 => 8

def signed : IntType → Bool
  | .int8 | .int16 | .int32 | .int64 => true
  | _ => false

end IntType

/-- `veo_args_intent`. -/
inductive Intent
  | input
  | inout
  | output
  deriving DecidableEq, Repr

namespace Intent

def copiedIn : Intent → Bool
  | .input | .inout => true
  | .output => false

def copiedOut : Intent → Bool
  | .inout | .output => true
  | .input => false

end Intent

/-- `ArgType<T>` for the integral types, its specialisations for `double` and `float` with the bits of the value,
and `ArgOnStack` with the address and the length of the buffer. -/
inductive Arg
  | int (ty : IntType) (value : BitVec (8 * ty.size))
  | double (bits : BitVec 64)
  | float (bits : BitVec 32)
  | onStack (buff len : Word) (intent : Intent)

def numArgsOnRegister : Nat := 8

def paramAreaOffset : Nat := 176

def zeros (k : Nat) : List Byte := List.replicate k 0

/-- `set_value`: the value is put at an offset and padded to 8 bytes. -/
def setValue (str : List Byte) (offset size : Nat) (value : BitVec (8 * size)) : List Byte :=
  -- extend if necessary
  let str := if str.length < offset then str ++ zeros (offset - str.length) else str
  -- put
  let str := splice str offset size (leBytes size value)
  -- pad for 8 byte-aligned
  if 0 < size % 8 then splice str (offset + size) (8 - size % 8) (zeros (8 - size % 8)) else str

namespace Arg

/-- `getRegVal`; `vemva` is the member of `ArgOnStack` that `setStackImage` sets. -/
def getRegVal (vemva : Word) : Arg → Word
  | .int ty value => if ty.signed then value.signExtend 64 else value.setWidth 64
  | .double bits => bits
  | .float bits => bits.setWidth 64 <<< 32
  | .onStack _ _ _ => vemva

/-- `sizeOnStack`. -/
def sizeOnStack : Arg → Word
  | .onStack _ len _ => if 0 < len % 8 then len + (8 - len % 8) else len
  | _ => 0

/-- The value of a scalar as `set_value` gets it. -/
def setScalar (stack : List Byte) (offset : Nat) : Arg → List Byte
  | .int ty value => setValue stack offset ty.size value
  | .double bits => setValue stack offset 8 bits
  | .float bits => setValue stack offset 8 (bits.setWidth 64 <<< 32)
  | .onStack _ _ _ => stack

/-- `setStackImage`: the stack, whether it must be copied in and out, and `vemva`. -/
def setStackImage (mem : Mem) (sp : Word) (stack : List Byte) (n : Nat) : Arg → List Byte × Bool × Bool × Word
  | .onStack buff len intent =>
      let vemva := sp + BitVec.ofNat 64 stack.length
      let data := if intent.copiedIn then mem.read buff len.toNat else zeros len.toNat
      let stack := stack ++ data
      -- padding for 8 byte-aligned
      let stack := if 0 < len.toNat % 8 then stack ++ zeros (8 - len.toNat % 8) else stack
      -- point the image
      let stack := if numArgsOnRegister ≤ n then setValue stack (paramAreaOffset + 8 * n) 8 vemva else stack
      (stack, intent.copiedIn, intent.copiedOut, vemva)
  | arg =>
      if n < numArgsOnRegister then (stack, false, false, 0)
      else (arg.setScalar stack (paramAreaOffset + n * 8), true, false, 0)

end Arg

/-- The loop of `getStackImage` from argument number `n` on. -/
def setStackImages (mem : Mem) (sp : Word) : List Byte → Nat → List Arg → List Byte × Bool × Bool × List Word
  | stack, _, [] => (stack, false, false, [])
  | stack, n, arg :: args =>
      let r := arg.setStackImage mem sp stack n
      let rs := setStackImages mem sp r.1 (n + 1) args
      (rs.1, r.2.1 || rs.2.1, r.2.2.1 || rs.2.2.1, r.2.2.2 :: rs.2.2.2)

/-- `PARAM_AREA_OFFSET + 8 * numArgs()`, an `int`. -/
def paramArea (args : List Arg) : BitVec 32 := BitVec.ofNat 32 (paramAreaOffset + 8 * args.length)

/-- The size of the stack before its alignment: `accumulate` adds in `size_t` and keeps the sum in an `int`. -/
def unalignedSize (args : List Arg) : BitVec 32 :=
  paramArea args + args.foldl (fun s arg => (s.signExtend 64 + arg.sizeOnStack).setWidth 32) 0

/-- `CallArgs` after `getStackImage`, with `vemva` of each argument. -/
structure StackImage where
  stackSize : Word
  stackTop : Word
  copiedIn : Bool
  copiedOut : Bool
  image : List Byte
  vemva : List Word

/-- `CallArgs::getStackImage`. -/
def getStackImage (mem : Mem) (args : List Arg) (sp : Word) : StackImage :=
  let stackSize := ((unalignedSize args).signExtend 64 + 15) / 16 * 16
  let stackTop := sp - stackSize
  let r := setStackImages mem stackTop (zeros ((paramArea args).signExtend 64).toNat) 0 args
  let grow := (r.1.length + 15) / 16 * 16 - r.1.length
  { stackSize := stackSize, stackTop := stackTop, copiedIn := r.2.1, copiedOut := r.2.2.1,
    image := r.1 ++ zeros grow, vemva := r.2.2.2 }

/-- `CallArgs::getRegVal` after `getStackImage`. -/
def getRegVal (args : List Arg) (img : StackImage) : List Word :=
  (List.zipWith (fun vemva arg => Arg.getRegVal vemva arg) img.vemva args).take numArgsOnRegister

end Aveo
