import AbstractMemory.Ident

/-! What can go wrong while a program is written down or asked about. -/

namespace AbstractMemory

/-- What a type should have been. -/
inductive TypeShape where
  | struct
  | functionType
  | pointer
  | functionPointer
  | elementAddress
deriving DecidableEq, Repr

def TypeShape.text : TypeShape → String
  | .struct => "struct"
  | .functionType => "function type"
  | .pointer => "pointer"
  | .functionPointer => "pointer to function"
  | .elementAddress => "getelementptr"

/-- Why a program does not go on at all. -/
inductive Halt where
  /-- A byte count does not fit. -/
  | overflow
  /-- A type is followed into itself again and again. -/
  | endless
deriving DecidableEq, Repr

def Halt.text : Halt → String
  | .overflow => "arithmetic overflow"
  | .endless => "recursion without end"

inductive ProgramError where
  | unknownType (type : Nat)
  | unknownValue (value : Nat)
  | unknownModule (index : Nat)
  | unsizedType (type : Nat)
  | invalidIndex (type : Nat) (index : Int)
  | notIndexable (type : Nat)
  | variableMemberIndex (type : Nat)
  | notNamedStruct (type : Nat)
  | bodyAlreadySet (type : Nat)
  | wrongType (expected : TypeShape) (found : Nat)
  | notFunction (value : Nat)
  | noInsertionPoint
  | duplicateSymbol (name : String)
  | halted (why : Halt)
deriving DecidableEq, Repr

def ProgramError.message : ProgramError → String
  | .unknownType t => "unknown type " ++ typeText t
  | .unknownValue v => "unknown value " ++ valueText v
  | .unknownModule m => "unknown module #" ++ toString m
  | .unsizedType t => "type " ++ typeText t ++ " has no size"
  | .invalidIndex t i => "index " ++ toString i ++ " is not valid for type " ++ typeText t
  | .notIndexable t => "type " ++ typeText t ++ " cannot be indexed"
  | .variableMemberIndex t => "struct index into " ++ typeText t ++ " must be a constant integer"
  | .notNamedStruct t => "type " ++ typeText t ++ " is not a named struct"
  | .bodyAlreadySet t => "body of struct " ++ typeText t ++ " is already set"
  | .wrongType s t => "expected " ++ s.text ++ ", found " ++ typeText t
  | .notFunction v => "value " ++ valueText v ++ " is not a function"
  | .noInsertionPoint => "no insertion point: call position_at_end first"
  | .duplicateSymbol name => "symbol '" ++ name ++ "' is defined twice"
  | .halted why => why.text

end AbstractMemory
