/-
Interpreter configuration.

The defaults can be overridden by two environment variables. A setting that is
present but unreadable is a failure that quotes the text as it was given, while the
reading itself ignores white space around it.
-/
import PackedIR.Error
import PackedIR.Text.Blank

set_option autoImplicit false

namespace PackedIR

/-- Settings of an interpreter. -/
structure Config where
  /-- Number of frames allowed before a call fails. -/
  maxCallDepth : Nat := 1024
  /-- Reject loads and stores outside owned allocations. -/
  sanitizeMemory : Bool := false
  /-- Run the module's global initializer while setting up. -/
  runGlobalInit : Bool := true
deriving DecidableEq, Repr, Inhabited

namespace Config

/-- The variable that overrides `maxCallDepth`. -/
def maxCallDepthVar : String := "FIR_INTERP_MAX_CALL_DEPTH"

/-- The variable that overrides `sanitizeMemory`. -/
def sanitizeVar : String := "FIR_INTERP_SANITIZE"

/-! ## Reading numbers and flags -/

/-- Reads further decimal digits below `2 ^ 64`. The first character that is no digit or the first
digit that overflows decides, whichever comes first. -/
def readDigits (acc : Nat) : List Char → Except NumberError Nat
  | [] => .ok acc
  | c :: cs =>
    if '0' ≤ c ∧ c ≤ '9' then
      let next := 10 * acc + (c.toNat - '0'.toNat)
      if next < Nat.pow 2 64 then readDigits next cs else .error .tooLarge
    else .error .invalidDigit

/-- Reads a natural number of 64 bits; a plus sign may stand in front. -/
def readNumber : List Char → Except NumberError Nat
  | [] => .error .empty
  | ['+'] => .error .invalidDigit
  | '+' :: cs => readDigits 0 cs
  | cs => readDigits 0 cs

/-- Reads a flag that has been trimmed and put in lower case. -/
def readFlag? (text : String) : Option Bool :=
  if text ∈ ["1", "true", "yes", "on"] then some true
  else if text ∈ ["0", "false", "no", "off", ""] then some false
  else none

/-- A call depth from the text of its variable. -/
def readDepth (text : String) : Result Nat :=
  match readNumber (Text.trimBlank text.toList) with
  | .ok n => .ok n
  | .error e => .error (.raised [.readingSetting maxCallDepthVar text] (.notNumber e))

/-- A sanitizer flag from the text of its variable. -/
def readSanitize (text : String) : Result Bool :=
  let bare := String.ofList ((Text.trimBlank text.toList).map Char.toLower)
  match readFlag? bare with
  | some b => .ok b
  | none => .error (.raised [.readingSetting sanitizeVar text] (.notBoolean bare))

/-- The defaults, with overrides from the given variables. -/
def ofVariables (lookup : String → Option String) : Result Config := do
  let base : Config := {}
  let maxCallDepth ← match lookup maxCallDepthVar with
    | some text => readDepth text
    | none => pure base.maxCallDepth
  let sanitizeMemory ← match lookup sanitizeVar with
    | some text => readSanitize text
    | none => pure base.sanitizeMemory
  return { base with maxCallDepth, sanitizeMemory }

end Config

end PackedIR
