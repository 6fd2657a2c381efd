/-
A library of native functions.

The functions are the ones that a program can be linked against: a fixed set known
by name to symbol tables, and a few of the C library that the process itself
provides. Arguments are read by register class, integers and floating-point numbers
each in their own order, and an argument that was not passed reads as zero.
-/
import PackedIR.Foreign.Host

set_option autoImplicit false

namespace PackedIR

/-- The scalar types that the echo functions exist for. -/
inductive EchoType where
  | int (bits : Nat) (signed : Bool)
  | float (width : FloatWidth)
  | bool
deriving DecidableEq, Repr, Inhabited

/-- The native functions. -/
inductive Native where
  | addI32
  | triple
  | mixed
  | halve
  | isNegative
  | answer
  | noop
  | weightedInts
  | weightedFloats
  | echo (ty : EchoType)
  | peekU8
  | pokeI64
  | fill
  | cstrLen
  | wrappedPrintf
  | getAdd
  | vaSumI32
  | vaSumI64
  | vaSumF64
  /-- This and the next two are provided by the process. -/
  | strlen
  | abs
  | snprintf
deriving DecidableEq, Repr, Inhabited

namespace Native

/-! ## Names and addresses -/

def EchoType.name : EchoType → String
  | .int bits signed => (if signed then "i" else "u") ++ toString bits
  | .float .f32 => "f32"
  | .float .f64 => "f64"
  | .bool => "bool"

def name : Native → String
  | .addI32 => "add_i32"
  | .triple => "triple"
  | .mixed => "mixed"
  | .halve => "halve"
  | .isNegative => "is_negative"
  | .answer => "answer"
  | .noop => "noop"
  | .weightedInts => "weighted_ints"
  | .weightedFloats => "weighted_floats"
  | .echo ty => "echo_" ++ EchoType.name ty
  | .peekU8 => "peek_u8"
  | .pokeI64 => "poke_i64"
  | .fill => "fill"
  | .cstrLen => "cstr_len"
  | .wrappedPrintf => "wrapped_printf"
  | .getAdd => "get_add"
  | .vaSumI32 => "va_sum_i32"
  | .vaSumI64 => "va_sum_i64"
  | .vaSumF64 => "va_sum_f64"
  | .strlen => "strlen"
  | .abs => "abs"
  | .snprintf => "snprintf"

/-- The functions that symbol tables can name. -/
def library : List Native :=
  [.addI32, .triple, .mixed, .halve, .isNegative, .answer, .noop, .weightedInts, .weightedFloats,
   .echo (.int 8 true), .echo (.int 16 true), .echo (.int 32 true), .echo (.int 64 true),
   .echo (.int 8 false), .echo (.int 16 false), .echo (.int 32 false), .echo (.int 64 false),
   .echo (.float .f32), .echo (.float .f64), .echo .bool,
   .peekU8, .pokeI64, .fill, .cstrLen, .wrappedPrintf, .getAdd,
   .vaSumI32, .vaSumI64, .vaSumF64]

/-- The functions that the process provides. -/
def process : List Native := [.strlen, .abs, .snprintf]

/-- All functions, in the order of their addresses. -/
def all : List Native := library ++ process

/-- The address of the first native function. -/
def base : Nat := Nat.pow 2 41

/-- The address of a function. -/
def address (n : Native) : Nat := base + 16 * all.idxOf n

/-- The function at an address. -/
def ofAddress? (a : Nat) : Option Native := all.find? fun n => n.address == a

/-- A library function by name. -/
def ofName? (text : String) : Option Native := library.find? fun n => n.name == text

/-- The symbols of the process. -/
def processSymbols : Resolver := fun text =>
  (process.find? fun n => n.name == text).map address

/-! ## Arguments -/

/-- Arguments by register class. -/
structure Args where
  ints : List Int
  vectors : List Nat

namespace Args

def ofScalars : List Scalar → Args
  | [] => ⟨[], []⟩
  | .int _ _ i :: rest => let args := ofScalars rest; { args with ints := i :: args.ints }
  | .float _ bits :: rest => let args := ofScalars rest; { args with vectors := bits :: args.vectors }

/-- Integer argument `index`, read as a C integer type. -/
def int (args : Args) (index size : Nat) (signed : Bool) : Int :=
  wrapInt size signed (args.ints.getD index 0)

/-- Pointer argument `index`. -/
def pointer (args : Args) (index : Nat) : Nat := (args.int index 8 false).toNat

/-- Floating-point argument `index`, read as a `double`. -/
def double (args : Args) (index : Nat) : Nat := args.vectors.getD index 0

/-- Floating-point argument `index`, read as a `float`. -/
def single (args : Args) (index : Nat) : Nat := args.vectors.getD index 0 % Nat.pow 2 32

end Args

/-! ## Results -/

/-- An integer result. -/
def integer (i : Int) : Returned := { integer := (wrapInt 8 false i).toNat }

/-- A floating-point result. -/
def vector (bits : Nat) : Returned := { vector := bits }

/-- Sum in double arithmetic. -/
def addD (x y : Nat) : Nat := Binary.double.arith .add x y

/-- Product in double arithmetic. -/
def mulD (x y : Nat) : Nat := Binary.double.arith .mul x y

/-- An integer as a double. -/
def ofIntD (i : Int) : Nat := Binary.double.ofInt i

/-- A `float` widened to a double. -/
def widen (bits : Nat) : Nat := Binary.convert Binary.single Binary.double bits

/-- Each integer times its position, counted from 1, and summed. -/
def weightedSum (terms : List Int) : Int :=
  (terms.zipIdx 1).foldl (fun acc (x, k) => acc + k * x) 0

/-- Each double times its position, counted from 1, and summed from the left. -/
def weightedSumD (terms : List Nat) : Nat :=
  (terms.zipIdx 1).foldl (fun acc (x, k) => addD acc (mulD (ofIntD k) x)) 0

/-! ## Strings in storage -/

/-- The bytes from `address` up to the first zero byte. -/
def cstring (arena : Arena) (address : Nat) : (fuel : Nat) → Bytes
  | 0 => []
  | fuel + 1 =>
    let b := arena.byteAt address
    if b = 0 then [] else b :: cstring arena (address + 1) fuel

/-- The text at an address. Past the arena every byte is zero, so its size bounds the length. -/
def stringAt (arena : Arena) (address : Nat) : Bytes :=
  cstring arena address (arena.bytes.size + 1)

/-- Formatted text: `%d` takes an `int`, `%s` a string, `%%` is a percent sign. -/
def format (arena : Arena) : Bytes → List Int → Bytes
  | 37 :: 100 :: rest, args =>
    (toString (wrapInt 4 true (args.headD 0))).toUTF8.toList ++ format arena rest args.tail
  | 37 :: 115 :: rest, args =>
    stringAt arena (wrapInt 8 false (args.headD 0)).toNat ++ format arena rest args.tail
  | 37 :: 37 :: rest, args => 37 :: format arena rest args
  | b :: rest, args => b :: format arena rest args
  | [], _ => []

/-! ## Code -/

def echoCode (args : Args) : EchoType → Returned
  | .int bits signed => integer (args.int 0 (bits / 8) signed)
  | .float .f32 => vector (args.single 0)
  | .float .f64 => vector (args.double 0)
  | .bool => integer (args.int 0 1 false)

/-- What a function does with its arguments and the storage. -/
def run (n : Native) (args : Args) (arena : Arena) : Returned × Arena :=
  match n with
  | .addI32 => (integer (wrapInt 4 true (args.int 0 4 true + args.int 1 4 true)), arena)
  | .triple => (integer (wrapInt 4 true (3 * args.int 0 4 true)), arena)
  | .mixed =>
    let sum := addD (ofIntD (args.int 0 1 false)) (args.double 0)
    (vector (addD (addD sum (ofIntD (args.int 1 8 true))) (widen (args.single 1))), arena)
  | .halve => (vector (Binary.single.arith .div (args.single 0) (Binary.single.ofInt 2)), arena)
  | .isNegative => (integer (if args.int 0 2 true < 0 then 1 else 0), arena)
  | .answer => (integer 42, arena)
  | .noop => ({}, arena)
  | .weightedInts =>
    (integer (weightedSum
      [args.int 0 8 true, args.int 1 4 true, args.int 2 1 false, args.int 3 2 true,
       args.int 4 8 true, args.int 5 4 false, args.int 6 1 true, args.int 7 8 true]), arena)
  | .weightedFloats =>
    (vector (weightedSumD
      [args.double 0, widen (args.single 1), args.double 2, args.double 3, widen (args.single 4),
       args.double 5, args.double 6, args.double 7, args.double 8, widen (args.single 9)]), arena)
  | .echo ty => (echoCode args ty, arena)
  | .peekU8 => (integer (arena.byteAt (args.pointer 0)).toNat, arena)
  | .pokeI64 =>
    ({}, arena.write (args.pointer 0) (Bytes.ofInt 8 (args.int 1 8 true)))
  | .fill =>
    let b := UInt8.ofNat (args.int 1 1 false).toNat
    (integer (args.pointer 0),
      arena.write (args.pointer 0) (List.replicate (args.int 2 8 false).toNat b))
  | .cstrLen | .strlen => (integer (stringAt arena (args.pointer 0)).length, arena)
  | .wrappedPrintf => (integer (1000 + (stringAt arena (args.pointer 0)).length), arena)
  | .getAdd => (integer (address .addI32), arena)
  | .vaSumI32 =>
    let terms := (args.ints.drop 1).take (args.int 0 4 true).toNat
    (integer (weightedSum (terms.map (wrapInt 4 true))), arena)
  | .vaSumI64 =>
    let terms := (args.ints.drop 1).take (args.int 0 4 true).toNat
    (integer (terms.foldl (· + wrapInt 8 true ·) 0), arena)
  | .vaSumF64 => (vector (weightedSumD (args.vectors.take (args.int 0 4 true).toNat)), arena)
  | .abs => (integer (wrapInt 4 true (args.int 0 4 true).natAbs), arena)
  | .snprintf =>
    let text := format arena (stringAt arena (args.pointer 2)) (args.ints.drop 3)
    let room := (args.int 1 8 false).toNat
    let written := if room = 0 then [] else text.take (room - 1) ++ [0]
    (integer text.length, arena.write (args.pointer 0) written)

/-- The host that provides exactly these functions. -/
def host : Host := fun a => (ofAddress? a).map fun n scalars arena =>
  n.run (Args.ofScalars scalars) arena

end Native

end PackedIR
