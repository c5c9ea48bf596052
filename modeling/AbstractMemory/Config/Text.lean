import AbstractMemory.Config.Basic
import AbstractMemory.Config.Format

/-! Settings as text of some format. They are written in full, and what is
missing when they are read is as it is by default. -/

namespace AbstractMemory

open Yaml (Tree)

namespace Config

def optionTree : Option Nat → Tree
  | none => .null
  | some n => .number n

def allocatorTree (a : Allocator) : Tree :=
  .map [("name", .text a.name), ("size_arg", optionTree a.sizeArg),
    ("flags_arg", optionTree a.flagsArg)]

def entries (c : Config) : List (String × Tree) :=
  [("version", .number c.version),
    ("allocators", .list (c.allocators.map allocatorTree)),
    ("union_name_prefix", .text c.unionName),
    ("model_function_objects", .bool c.functionObjects)]

variable (F : TextFormat)

/-- The text of settings. -/
def toText (c : Config) : String :=
  F.emit c.entries

/-- The settings of an allocator read so far. -/
structure AllocatorDraft where
  name : Option String := none
  sizeArg : Option (Option Nat) := none
  flagsArg : Option (Option Nat) := none
deriving DecidableEq, Repr, Inhabited

/-- Fills what is not filled yet. -/
def fill {F : TextFormat} {α : Type} (old : Option α) (new : F.Use α) : F.Use (Option α) :=
  match old with
  | some _ => failure
  | none => some <$> new

/-- Reads one setting of an allocator. Unknown ones are passed over. -/
def readAllocatorEntry (draft : AllocatorDraft) (entry : F.Node × F.Node) :
    F.Use AllocatorDraft := do
  let key ← F.asText entry.1
  if key == "name" then
    return { draft with name := ← fill draft.name (F.asText entry.2) }
  else if key == "size_arg" then
    return { draft with sizeArg := ← fill draft.sizeArg (F.asOptionalNumber entry.2) }
  else if key == "flags_arg" then
    return { draft with flagsArg := ← fill draft.flagsArg (F.asOptionalNumber entry.2) }
  else return draft

def readAllocator (n : F.Node) : F.Use Allocator := do
  let draft ← (← F.asEntries n).foldlM (readAllocatorEntry F) {}
  return {
    name := ← draft.name
    sizeArg := draft.sizeArg.getD none
    flagsArg := draft.flagsArg.getD none }

/-- The settings read so far. -/
structure ConfigDraft where
  version : Option (Option Nat) := none
  allocators : Option (List Allocator) := none
  unionName : Option String := none
  functionObjects : Option Bool := none
deriving DecidableEq, Repr, Inhabited

/-- Reads one setting. There are no others. -/
def readEntry (draft : ConfigDraft) (entry : F.Node × F.Node) : F.Use ConfigDraft := do
  let key ← F.asText entry.1
  if key == "version" then
    return { draft with version := ← fill draft.version (F.asOptionalNumber entry.2) }
  else if key == "allocators" then
    let allocators : F.Use (List Allocator) := do
      (← F.asItems entry.2).mapM (readAllocator F)
    return { draft with allocators := ← fill draft.allocators allocators }
  else if key == "union_name_prefix" then
    return { draft with unionName := ← fill draft.unionName (F.asText entry.2) }
  else if key == "model_function_objects" then
    return { draft with functionObjects := ← fill draft.functionObjects (F.asBool entry.2) }
  else failure

/-- The settings of a text, given its node and the state to start with. -/
def readDraft (parsed : Option F.Node × F.State) : Option ConfigDraft :=
  match parsed.1 with
  | none => some {}
  | some n =>
    let draft : F.Use ConfigDraft := do
      (← F.asEntries n).foldlM (readEntry F) {}
    draft.run' parsed.2

/-- The settings of a document, which has to give a version that is known. -/
def ofDraft (draft : ConfigDraft) : Except ConfigError Config := do
  match draft.version.getD none with
  | none => throw .missingVersion
  | some version =>
    if version ≠ supportedVersion then throw (.unsupportedVersion version)
    let c : Config := {
      version
      allocators := draft.allocators.getD defaultAllocators
      unionName := draft.unionName.getD "union."
      functionObjects := draft.functionObjects.getD true }
    c.validate
    return c

/-- The settings that a text gives. -/
def ofText (text : String) : Except ConfigError Config :=
  match (F.parse text).bind (readDraft F) with
  | none => .error .malformed
  | some draft => ofDraft draft

/-- The settings that a file gives, which may be missing or not be text. -/
def ofFile (bytes : Option ByteArray) : Except ConfigError Config :=
  match bytes with
  | none => .error (.file .notFound)
  | some bytes =>
    match String.fromUTF8? bytes with
    | none => .error (.file .notText)
    | some text => ofText F text

end Config

end AbstractMemory
