import AbstractMemory.Program.Error

/-! What can go wrong while a struct is flattened. -/

namespace AbstractMemory

/-- Why a field table does not fit together. -/
inductive RecordFault where
  | elementTypesOfMissingField (field : Nat)
  | memberAtMissingField (field : Nat)
deriving DecidableEq, Repr

def RecordFault.text : RecordFault → String
  | .elementTypesOfMissingField f => "element types recorded for missing field " ++ toString f
  | .memberAtMissingField f => "declared member maps to missing field " ++ toString f

inductive RecordError where
  | notStruct (type : Nat)
  | bodilessMember (outer inner : String)
  | containsItself (name : String)
  | inconsistent (name : String) (fault : RecordFault)
  | program (e : ProgramError)
deriving DecidableEq, Repr

def RecordError.message : RecordError → String
  | .notStruct t => "type " ++ typeText t ++ " is not a struct"
  | .bodilessMember outer inner =>
    "opaque struct '" ++ inner ++ "' is embedded by value in '" ++ outer ++ "'"
  | .containsItself name => "struct '" ++ name ++ "' contains itself by value"
  | .inconsistent name fault =>
    "field record for '" ++ name ++ "' is inconsistent: " ++ fault.text
  | .program e => e.message

end AbstractMemory
