/-
The world outside the interpreter: symbols and native code.

A resolver finds the address of a symbol, and a host gives the code behind an
address. Code is a function of the passed scalars and of the arena, which it may
change; it cannot touch the bookkeeping of allocations.
-/
import PackedIR.Foreign.Abi
import PackedIR.Memory.Arena

set_option autoImplicit false

namespace PackedIR

/-- Finds the address of a native symbol. -/
abbrev Resolver := String → Option Nat

namespace Resolver

/-- An explicit list of symbols; the first entry of a name counts. -/
def table (symbols : List (String × Nat)) : Resolver := fun name => symbols.lookup name

/-- Tries each resolver in order. -/
def chain (resolvers : List Resolver) : Resolver := fun name => resolvers.findSome? (· name)

end Resolver

/-- Native code: from arguments and storage to a result and changed storage. -/
abbrev NativeCode := List Scalar → Arena → Returned × Arena

/-- The native code that can be called. -/
abbrev Host := Nat → Option NativeCode

/-- A native function as the caller sees it. -/
structure Callee where
  address : Nat
  ret : Ty
  /-- Number of declared parameters; arguments past them are promoted. -/
  fixed : Nat

/-- A foreign call that is ready to be made. -/
structure ForeignCall where
  code : NativeCode
  args : List Scalar
  retClass : AbiClass

/-- Prepares a call. The return type is classified first, then the arguments are converted, and
only then is the address looked at. -/
def Callee.prepare (c : Callee) (host : Host) (args : List Value) : Result ForeignCall := do
  let retClass ← AbiClass.ofTy c.ret
  let scalars ← marshal c.fixed 0 args
  if c.address = 0 then raise (.unknownFunction 0)
  else
    retClass.check
    match host c.address with
    | some code => return ⟨code, scalars, retClass⟩
    | none => .error (.fault .noNativeCode)

end PackedIR
