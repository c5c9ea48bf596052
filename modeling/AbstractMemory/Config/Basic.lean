import AbstractMemory.Config.Allocator

/-! Settings of a memory model, and when they make sense. -/

namespace AbstractMemory

inductive ArgumentRole where
  | size
  | flags
deriving DecidableEq, Repr

def ArgumentRole.field : ArgumentRole → String
  | .size => "size_arg"
  | .flags => "flags_arg"

/-- Why a file gave no text. -/
inductive FileFault where
  | notFound
  | notText
deriving DecidableEq, Repr

def FileFault.text : FileFault → String
  | .notFound => "No such file or directory (os error 2)"
  | .notText => "stream did not contain valid UTF-8"

/-- Settings that contradict themselves. -/
inductive ConfigFault where
  | emptyUnionName
  | emptyAllocatorName (index : Nat)
  | repeatedAllocator (name : String)
  | sharedArgument (name : String)
deriving DecidableEq, Repr

def ConfigFault.text : ConfigFault → String
  | .emptyUnionName => "union_name_prefix must not be empty"
  | .emptyAllocatorName i => "allocators[" ++ toString i ++ "] has an empty name"
  | .repeatedAllocator name => "allocator '" ++ name ++ "' is listed twice"
  | .sharedArgument name =>
    "allocator '" ++ name ++ "' uses the same argument for size and flags"

inductive ConfigError where
  | argumentOutOfRange (index : Nat) (role : ArgumentRole) (position : Nat)
  | missingVersion
  | unsupportedVersion (found : Nat)
  | file (fault : FileFault)
  | malformed
  | invalid (fault : ConfigFault)
deriving DecidableEq, Repr

/-- The last argument position an allocator may name. -/
def maxArgument : Nat := 15

def supportedVersion : Nat := 1

def ConfigError.message : ConfigError → String
  | .argumentOutOfRange i role position =>
    "Invalid range for field 'allocators[" ++ toString i ++ "]." ++ role.field ++ "': " ++
      toString position ++ " not in 0..=" ++ toString maxArgument ++
      ". Argument positions are zero-based"
  | .missingVersion =>
    "Missing 'version' field in configuration file. " ++
      "Add 'version: 1' to the top of your YAML file."
  | .unsupportedVersion found =>
    "Unsupported configuration version " ++ toString found ++ ". Supported versions: " ++
      toString supportedVersion
  | .file fault => "IO error: " ++ fault.text
  | .malformed => "YAML parsing error"
  | .invalid fault => "Validation error: " ++ fault.text

structure Config where
  version : Nat := supportedVersion
  /-- Functions whose calls make heap objects and whose bodies are left out. -/
  allocators : List Allocator := defaultAllocators
  /-- Structs whose name starts with this are unions. -/
  unionName : String := "union."
  /-- Whether a function whose address is taken is an object. -/
  functionObjects : Bool := true
deriving DecidableEq, Repr, Inhabited

namespace Config

def allocatorTable (c : Config) : AllocatorTable :=
  .ofList c.allocators

def checkArgument (index : Nat) (role : ArgumentRole) (position : Option Nat) :
    Except ConfigError Unit :=
  match position with
  | none => .ok ()
  | some n => if maxArgument < n then .error (.argumentOutOfRange index role n) else .ok ()

/-- Checks the allocators from number `index` on, given the names before. -/
def checkAllocators (index : Nat) (names : List String) : List Allocator → Except ConfigError Unit
  | [] => .ok ()
  | a :: rest => do
    if a.name.isEmpty then throw (.invalid (.emptyAllocatorName index))
    if a.name ∈ names then throw (.invalid (.repeatedAllocator a.name))
    checkArgument index .size a.sizeArg
    checkArgument index .flags a.flagsArg
    if a.sizeArg.isSome ∧ a.sizeArg = a.flagsArg then throw (.invalid (.sharedArgument a.name))
    checkAllocators (index + 1) (a.name :: names) rest

def validate (c : Config) : Except ConfigError Unit := do
  if c.unionName.isEmpty then throw (.invalid .emptyUnionName)
  checkAllocators 0 [] c.allocators

end Config

end AbstractMemory
