import StylePrep.Call
import StylePrep.Malformed
import StylePrep.Text.Alphanumeric

/-!
# Signatures of registered functions

A signature `name($a, $b: default)` lets calls of `name` be recognized and their
arguments put in the order of the parameters. An argument of the form
`$parameter: value` binds by keyword, every other one by position; positions come
first, no parameter is bound twice, and what stays unbound takes its default.
Calls are reordered, never evaluated.
-/

namespace StylePrep

/-- A declared parameter; its name has no leading dollar sign. -/
structure Parameter where
  name : Text
  default? : Option Text
  deriving DecidableEq, Repr

structure Signature where
  name : Text
  params : List Parameter
  deriving DecidableEq, Repr

inductive SignatureFault where
  | notACall
  | withoutDollar
  | unnamed
  | duplicate
  deriving DecidableEq, Repr

structure SignatureError where
  source : Text
  fault : SignatureFault
  deriving DecidableEq, Repr

namespace SignatureError

def message (e : SignatureError) : String :=
  "invalid custom function signature `" ++ e.source.asString ++ "`: " ++ match e.fault with
    | .notACall => "expected name(...)"
    | .withoutDollar => "parameters must start with $"
    | .unnamed => "empty parameter name"
    | .duplicate => "duplicate parameter"

def help : String := "Use the form name($arg1, $arg2: default)"

end SignatureError

namespace Parameter

open Text

/-- Read `$name` or `$name: default`. -/
def parse (arg : Text) : Except SignatureFault Parameter :=
  match after? ['$'] arg with
  | none => .error .withoutDollar
  | some body =>
    let param : Parameter := match splitOnce? ':' body with
      | some (name, value) => ⟨trim name, some (trim value)⟩
      | none => ⟨trim body, none⟩
    if param.name = [] then .error .unnamed else .ok param

/-- Read the parameters in order, refusing a name that came before. -/
def parseAll : List Text → Except SignatureFault (List Parameter) := go []
where
  go (earlier : List Parameter) : List Text → Except SignatureFault (List Parameter)
    | [] => .ok earlier
    | arg :: args => do
      let param ← parse arg
      if earlier.any (·.name = param.name) then .error .duplicate
      else go (earlier ++ [param]) args

end Parameter

namespace Signature

open Text

/-- Read a signature of the form `name($a, $b: default)`. -/
def parse (source : Text) : Except SignatureError Signature :=
  match Call.parse? source with
  | none => .error ⟨source, .notACall⟩
  | some call =>
    match Parameter.parseAll call.args with
    | .error fault => .error ⟨source, fault⟩
    | .ok params => .ok ⟨call.name, params⟩

/-- The keyword and the value of a keyword argument `$name: value`. A name holds
letters, numbers, hyphens and underscores; anything else makes the argument a
positional one. -/
def keyword? (arg : Text) : Option (Text × Text) := do
  let (name, value) ← splitOnce? ':' (← after? ['$'] arg)
  let name := trim name
  if name ≠ [] ∧ name.all (fun c => isAlphanumeric c || c == '-' || c == '_') then
    some (name, trim value)
  else none

/-- Put each argument into the slot of its parameter. `positional` arguments
have been placed so far, and `keyworded` tells whether a keyword came before. -/
def place (sig : Signature) (given : Nat) (slots : List (Option Text)) (positional : Nat)
    (keyworded : Bool) : List Text → Except BindingFault (List (Option Text))
  | [] => .ok slots
  | arg :: args =>
    match keyword? arg with
    | some (keyword, value) =>
      match sig.params.findIdx? (·.name = keyword) with
      | none => .error (.noParameter keyword)
      | some i =>
        if (slots[i]?.join).isSome then .error (.repeated keyword)
        else place sig given (slots.set i (some value)) positional true args
    | none =>
      if keyworded then .error .positionalAfterKeyword
      else if sig.params.length ≤ positional then .error (.tooMany sig.params.length given)
      else place sig given (slots.set positional (some arg)) (positional + 1) false args

def fill : List (Option Text × Parameter) → Except BindingFault (List Text)
  | [] => .ok []
  | (slot, param) :: rest =>
    match slot.or param.default? with
    | none => .error (.missing param.name)
    | some value => (fill rest).map (value :: ·)

/-- The values bound to the parameters, in parameter order. -/
def bind (sig : Signature) (args : List Text) : Except BindingFault (List Text) := do
  let slots ← sig.place args.length (List.replicate sig.params.length none) 0 false args
  fill (slots.zip sig.params)

/-- The values bound to the parameters, a fault being reported on `line`. -/
def normalize (sig : Signature) (args : List Text) (line : Nat) : Except ScanError (List Text) :=
  match sig.bind args with
  | .error fault => .error ⟨line, .binding sig.name fault⟩
  | .ok values => .ok values

end Signature

/-- The registered functions. A later registration hides an earlier one of the
same name. -/
structure FunctionTable where
  signatures : List Signature
  deriving DecidableEq, Repr

namespace FunctionTable

def empty : FunctionTable := ⟨[]⟩

def register (table : FunctionTable) (sig : Signature) : FunctionTable :=
  ⟨sig :: table.signatures⟩

def get? (table : FunctionTable) (name : Text) : Option Signature :=
  table.signatures.find? (·.name = name)

def contains (table : FunctionTable) (name : Text) : Bool := (table.get? name).isSome

def isEmpty (table : FunctionTable) : Bool := table.signatures.isEmpty

def ofSources (sources : List Text) : Except SignatureError FunctionTable :=
  sources.foldlM (fun table source => (Signature.parse source).map table.register) empty

@[simp] theorem get?_empty (name : Text) : empty.get? name = none := rfl

/-- The last registration wins. -/
theorem get?_register (table : FunctionTable) (sig : Signature) (name : Text) :
    (table.register sig).get? name = if sig.name = name then some sig else table.get? name := by
  unfold get? register
  by_cases h : sig.name = name <;> simp [h]

end FunctionTable

end StylePrep
