import ObjectMemory.Handle
import ObjectMemory.Binary64
import ObjectMemory.Text.Quoted
set_option autoImplicit false

/-!
# Values

A value is an immediate (undefined, null, a truth value, a number), a leaf that can never point back
into the object graph (text, a symbol, a big integer, a module), or a counted reference to a cell of
the heap.  Only objects and function bytecode are counted references.

Symbols and modules are compared by identity, numbers as numbers, everything else by content.
-/

namespace ObjectMemory

/-- A symbol.  Two symbols are the same only if they have the same identity, whatever they are
described as. -/
structure Symbol where
  identity : String
  description : Option String
  deriving DecidableEq, Repr, Inhabited

/-- A module record: its identity and the specifier it was named by. -/
structure ModuleRecord where
  identity : String
  specifier : String
  deriving DecidableEq, Repr, Inhabited

/-- Any value a property, a variable or a frame may hold. -/
inductive Value where
  | undefined
  | null
  | boolean (b : Bool)
  /-- a small integer -/
  | smi (n : Int32)
  | double (x : Binary64)
  /-- a counted reference to an object -/
  | object (r : Handle)
  /-- a counted reference to function bytecode -/
  | bytecode (r : Handle)
  | string (s : String)
  | symbol (s : Symbol)
  /-- an integer of any size -/
  | big (n : Int)
  | moduleRecord (m : ModuleRecord)
  deriving DecidableEq, Repr, Inhabited

namespace Value

/-- The cell a value refers to, for the values that are counted. -/
def ref? : Value → Option Handle
  | object r => some r
  | bytecode r => some r
  | _ => none

/-- The object a value refers to. -/
def object? : Value → Option Handle
  | object r => some r
  | _ => none

/-- The value is an object. -/
def isObject (v : Value) : Bool := v.object?.isSome

/-- A copy of the value shares something that is counted: every value but the immediates. -/
def isShared : Value → Bool
  | undefined | null | boolean _ | smi _ | double _ => false
  | _ => true

/-- Equality as the program sees it: numbers as numbers, symbols and modules by identity. -/
def same : Value → Value → Bool
  | undefined, undefined => true
  | null, null => true
  | boolean a, boolean b => a == b
  | smi a, smi b => a == b
  | double a, double b => a.numEq b
  | object a, object b => a == b
  | bytecode a, bytecode b => a == b
  | string a, string b => a == b
  | symbol a, symbol b => a.identity == b.identity
  | big a, big b => a == b
  | moduleRecord a, moduleRecord b => a.identity == b.identity
  | _, _ => false

/-- The value counts as true in a condition. -/
def isTruthy : Value → Bool
  | undefined | null => false
  | boolean b => b
  | smi n => n != 0
  | double x => !x.isNaN && !x.isZero
  | string s => !s.isEmpty
  | big n => n != 0
  | object _ | bytecode _ | symbol _ | moduleRecord _ => true

/-- The name of the value's type. -/
def typeName : Value → String
  | undefined => "undefined"
  | null => "object"
  | boolean _ => "boolean"
  | smi _ | double _ => "number"
  | object _ | moduleRecord _ => "object"
  | bytecode _ => "function"
  | string _ => "string"
  | symbol _ => "symbol"
  | big _ => "bigint"

/-- The text shown to a user. -/
def text : Value → String
  | undefined => "undefined"
  | null => "null"
  | boolean b => if b then "true" else "false"
  | smi n => toString n.toInt
  | double x => x.text
  | object _ => "[object Object]"
  | bytecode _ => "[bytecode]"
  | string s => s
  | symbol s => "Symbol(" ++ s.description.getD "" ++ ")"
  | big n => toString n ++ "n"
  | moduleRecord _ => "[module]"

/-- The diagnostic text: the kind of value and its content. -/
def describe : Value → String
  | undefined => "Undefined"
  | null => "Null"
  | boolean b => "Boolean(" ++ (if b then "true" else "false") ++ ")"
  | smi n => "Smi(" ++ toString n.toInt ++ ")"
  | double x => "Double(" ++ x.describe ++ ")"
  | object r => "Object(" ++ r.describe ++ ")"
  | bytecode r => "FunctionBytecode(" ++ r.describe ++ ")"
  | string s => "String(" ++ Text.quote s ++ ")"
  | symbol s => "Symbol(" ++ (match s.description with
      | none => "None"
      | some d => "Some(" ++ Text.quote d ++ ")") ++ ")"
  | big n => "BigNumber(" ++ toString n ++ ")"
  | moduleRecord m => "Module(" ++ Text.quote m.specifier ++ ")"

end Value

end ObjectMemory
