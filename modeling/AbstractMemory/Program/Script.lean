import AbstractMemory.Program.Build

/-! Programs as scripts: every way to extend a draft is a command, and a
command that fails does not stop the ones after it. -/

namespace AbstractMemory

inductive Command where
  | void
  | int (bits : Nat)
  | float (bits : Nat)
  | pointerTo (pointee : Nat)
  | arrayOf (element : Nat) (length : Nat)
  | functionOf (result : Nat) (params : List Nat) (variadic : Bool)
  | literalStruct (members : List Nat) (packed : Bool)
  | namedStruct (name : String)
  | setBody (type : Nat) (members : List Nat) (packed : Bool)
  | defineStruct (name : String) (members : List Nat)
  | defineUnion (name : String) (members : List Nat)
  | addModule (name : String)
  | enterModule (index : Nat)
  | global (name : String) (type : Nat) (isDeclaration : Bool)
  | function (name : String) (signature : Nat) (isDeclaration : Bool)
  | arguments (function : Nat)
  | insertInto (function : Nat)
  | alloca (type : Nat)
  | call (callee : Nat) (args : List Nat)
  | cast (kind : CastKind) (source : Nat) (type : Nat)
  | elementAddress (source : Nat) (base : Nat) (indices : List Nat)
  | load (pointer : Nat)
  | store (value pointer : Nat)
  | ret (value : Option Nat)
  | instruction (opcode : String) (type : Nat) (operands : List Nat)
  | integer (type : Nat) (value : Int)
  | null (type : Nat)
  | undefined (type : Nat)
  | blockAddress
  | constantAddress (source : Nat) (base : Nat) (indices : List Int)
  | constantCast (kind : CastKind) (source : Nat) (type : Nat)
  | constantExpr (opcode : String) (type : Nat) (operands : List Nat)
  | value (type : Nat) (name : Option String) (kind : ValueKind)
deriving DecidableEq, Repr, Inhabited

inductive Reply where
  | done
  | id (n : Nat)
  | ids (ns : List Nat)
deriving DecidableEq, Repr, Inhabited

namespace Command

open Build in
def run : Command → Build Reply
  | .void => .id <$> onTypes (·.void)
  | .int bits => .id <$> onTypes (·.int bits)
  | .float bits => .id <$> onTypes (·.float bits)
  | .pointerTo t => .id <$> onTypes (·.pointerTo t)
  | .arrayOf t n => .id <$> onTypes (·.arrayOf t n)
  | .functionOf t ps variadic => .id <$> onTypes (·.function t ps variadic)
  | .literalStruct ms packed => .id <$> onTypes (·.literalStruct ms packed)
  | .namedStruct name => .id <$> onTypes (·.namedStruct name)
  | .setBody t ms packed => (fun _ => .done) <$> Build.setBody t ms packed
  | .defineStruct name ms => .id <$> onTypes (·.defineStruct name ms)
  | .defineUnion name ms => .id <$> onTypes (·.defineUnion name ms)
  | .addModule name => .id <$> Build.addModule name
  | .enterModule index => (fun _ => .done) <$> Build.enterModule index
  | .global name t isDeclaration => .id <$> addGlobal name t isDeclaration
  | .function name t isDeclaration => .id <$> addFunction name t isDeclaration
  | .arguments v => .ids <$> Build.arguments v
  | .insertInto v => (fun _ => .done) <$> Build.insertInto v
  | .alloca t => .id <$> Build.alloca t
  | .call callee args => .id <$> Build.call callee args
  | .cast kind source t => .id <$> Build.cast kind source t
  | .elementAddress t base indices => .id <$> Build.elementAddress t base indices
  | .load v => .id <$> Build.load v
  | .store stored pointer => .id <$> Build.store stored pointer
  | .ret v => .id <$> Build.ret v
  | .instruction opcode t vs => .id <$> pushInstruction t (.other opcode vs)
  | .integer t i => .id <$> pushConstant t (.integer i)
  | .null t => .id <$> pushConstant t .null
  | .undefined t => .id <$> pushConstant t .undefined
  | .blockAddress => .id <$> Build.blockAddress
  | .constantAddress t base indices => .id <$> Build.constantAddress t base indices
  | .constantCast kind source t => .id <$> pushConstant t (.expr (.cast kind source))
  | .constantExpr opcode t vs => .id <$> pushConstant t (.expr (.other opcode vs))
  | .value t name kind => .id <$> pushValue { type := t, name, kind }

/-- One command's reply or error, and the draft after it. -/
def step (c : Command) (d : Draft) : Except ProgramError Reply × Draft :=
  match c.run d with
  | .ok r d => (.ok r, d)
  | .error e d => (.error e, d)

end Command

namespace Draft

def start (layout : DataLayout) : Draft :=
  { program := { dataLayout := layout } }

/-- The replies to the commands of a script, and the draft after all of them. -/
def runScript (d : Draft) : List Command → List (Except ProgramError Reply) × Draft
  | [] => ([], d)
  | c :: rest =>
    let (reply, d) := c.step d
    let (replies, d) := d.runScript rest
    (reply :: replies, d)

end Draft

end AbstractMemory
