import Mathlib.Data.List.AList
import ObjectHeap.Machine.Request

/-!
# The abstract machine

What a program can know of a machine. Strings are their texts, tables are finite maps from texts,
and classes and instances have numbers in the order in which they were made. There are no slots,
nothing is ever released, and there is nothing to collect.

Every request has its abstract counterpart, with texts in place of symbols and numbers in place of
references, and so has every reply. That a machine does what the abstract one does is the subject of
`Proofs/Abstract/Refinement`.
-/

set_option autoImplicit false

namespace ObjectHeap

namespace Abstract

inductive Value
  | nil
  | bool (b : Bool)
  | num (n : Number)
  | str (text : String)
  | cls (id : Nat)
  | inst (id : Nat)
  deriving DecidableEq, Repr

/-- A finite map from names to values. -/
abbrev Bindings : Type := AList fun _ : String => Value

inductive Object
  | cls (name : String) (methods : Bindings)
  | inst (cls : Nat) (fields : Bindings)

structure Machine where
  /-- The stack, its top first. -/
  stack : List Value := []
  globals : Bindings := ∅
  /-- All classes and instances that were ever made. -/
  objects : List Object := []

inductive Request
  | push (v : Value)
  | pop
  | peek (distance : Nat)
  | intern (text : String)
  | concatenate (first second : String)
  | defineGlobal (name : String) (v : Value)
  | getGlobal (name : String)
  | setGlobal (name : String) (v : Value)
  | globalNames
  | newClass (name : String)
  | newInstance (cls : Nat)
  | defineMethod (cls : Nat) (name : String) (method : Value)
  | inherit (super : Value) (cls : Nat)
  | getProperty (receiver : Value) (name : String)
  | setProperty (receiver : Value) (name : String) (v : Value)
  | display (v : Value)
  | collect
  | reset

inductive Reply
  | done
  | top (v : Option Value)
  | symbol (text : String)
  | cls (id : Nat)
  | inst (id : Nat)
  | found (v : Value)
  | text (s : String)
  | names (names : List String)
  | refused (why : Refusal)

namespace Machine

variable (m : Machine)

/-- The name and the methods of a class. -/
def cls? (id : Nat) : Option (String × Bindings) :=
  match m.objects[id]? with
  | some (.cls name methods) => some (name, methods)
  | _ => none

/-- The class and the fields of an instance. -/
def inst? (id : Nat) : Option (Nat × Bindings) :=
  match m.objects[id]? with
  | some (.inst cls fields) => some (cls, fields)
  | _ => none

def setObject (id : Nat) (o : Object) : Machine := { m with objects := m.objects.set id o }

def addObject (o : Object) : Machine := { m with objects := m.objects ++ [o] }

def getGlobal (name : String) : Reply :=
  match m.globals.lookup name with
  | some v => .found v
  | none => .refused (.undefinedVariable name)

def setGlobal (name : String) (v : Value) : Machine × Reply :=
  match m.globals.lookup name with
  | some _ => ({ m with globals := m.globals.insert name v }, .done)
  | none => (m, .refused (.undefinedVariable name))

def globalNames : List String := m.globals.keys.mergeSort fun a b => a ≤ b

def defineMethod (cls : Nat) (name : String) (method : Value) : Option Machine := do
  let (clsName, methods) ← m.cls? cls
  return m.setObject cls (.cls clsName (methods.insert name method))

def inherit (super : Value) (cls : Nat) : Option (Machine × Reply) :=
  match super with
  | .cls super => do
    let (_, inherited) ← m.cls? super
    let (name, methods) ← m.cls? cls
    return (m.setObject cls (.cls name (inherited ∪ methods)), .done)
  | _ => return (m, .refused .invalidSuperclass)

def getProperty (receiver : Value) (name : String) : Option Reply :=
  match receiver with
  | .inst id => do
    let (cls, fields) ← m.inst? id
    let (_, methods) ← m.cls? cls
    match (fields.lookup name).or (methods.lookup name) with
    | some v => return .found v
    | none => return .refused (.undefinedProperty name)
  | _ => return .refused .notAnInstance

def setProperty (receiver : Value) (name : String) (v : Value) : Option (Machine × Reply) :=
  match receiver with
  | .inst id => do
    let (cls, fields) ← m.inst? id
    return (m.setObject id (.inst cls (fields.insert name v)), .done)
  | _ => return (m, .refused .noFields)

def display : Value → Option String
  | .nil => return "nil"
  | .bool true => return "true"
  | .bool false => return "false"
  | .num n => return n.text
  | .str text => return text
  | .cls id => (m.cls? id).map Prod.fst
  | .inst id => do
    let (cls, _) ← m.inst? id
    let (name, _) ← m.cls? cls
    return name ++ " instance"

/-- Carries out a request, if the classes and instances that it is about exist. -/
def handle : Request → Option (Machine × Reply)
  | .push v => return ({ m with stack := v :: m.stack }, .done)
  | .pop => return ({ m with stack := m.stack.tail }, .top m.stack.head?)
  | .peek distance => return (m, .top m.stack[distance]?)
  | .intern text => return (m, .symbol text)
  | .concatenate first second => return (m, .symbol (first ++ second))
  | .defineGlobal name v => return ({ m with globals := m.globals.insert name v }, .done)
  | .getGlobal name => return (m, m.getGlobal name)
  | .setGlobal name v => return m.setGlobal name v
  | .globalNames => return (m, .names m.globalNames)
  | .newClass name => return (m.addObject (.cls name ∅), .cls m.objects.length)
  | .newInstance cls => return (m.addObject (.inst cls ∅), .inst m.objects.length)
  | .defineMethod cls name method => return (← m.defineMethod cls name method, .done)
  | .inherit super cls => m.inherit super cls
  | .getProperty receiver name => return (m, ← m.getProperty receiver name)
  | .setProperty receiver name v => m.setProperty receiver name v
  | .display v => return (m, .text (← m.display v))
  | .collect => return (m, .done)
  | .reset => return ({ m with stack := [], globals := ∅ }, .done)

end Machine

end Abstract

end ObjectHeap
