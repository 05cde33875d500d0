import CommandScript.Value.Convert

/-!
# Completions and exceptions

A script completes with a value or with an exception: an error, a `return` on its way up through
procedure boundaries, or a plain code such as that of `break` or `exit`. `Completion` is the code
alone. An error carries its kind, its code and the trace of commands it passed.
-/

namespace CommandScript

inductive Completion where
  | okay | error | returned | broken | continued
  | exited (status : Int)
  | other (code : Int)
  deriving DecidableEq, Repr, Inhabited

/-- A code that is neither a name nor an integer. -/
structure BadCompletion where
  text : String
  deriving DecidableEq, Repr

instance : Fault BadCompletion where
  kind _ := .generic
  message f := s!"bad completion code \"{f.text}\": must be ok, error, return, break, continue, " ++
    "or an integer"

namespace Completion

/-- The code that an integer stands for. -/
def ofInt (n : Int) : Completion :=
  match n with
  | 0 => okay
  | 1 => error
  | 2 => returned
  | 3 => broken
  | 4 => continued
  | n => other n

def toInt : Completion → Int
  | okay => 0
  | error => 1
  | returned => 2
  | broken => 3
  | continued => 4
  | exited status => status
  | other code => code

/-- Reads a code: a name or an integer. -/
def ofValue (v : Value) : Except BadCompletion Completion :=
  match v.text with
  | "ok" => .ok okay
  | "error" => .ok error
  | "return" => .ok returned
  | "break" => .ok broken
  | "continue" => .ok continued
  | text =>
    match v.toInt with
    | .ok n => .ok (ofInt n.toInt)
    | .error _ => .error ⟨text⟩

end Completion

/-- What an error carries besides its message. -/
structure ErrorData where
  kind : ErrorKind
  /-- The value for `errorCode`. -/
  code : Value
  /-- The trace for `errorInfo`: the message, then a line or more per command passed. -/
  info : String
  /-- Whether nothing has been added to the trace yet. -/
  isNew : Bool := true
  deriving Inhabited, Repr

inductive Exception where
  | error (message : Value) (data : ErrorData)
  /-- A `return` that has `level` more boundaries to pass and then completes with `next`. -/
  | returning (value : Value) (level : Nat) (next : Completion) (data : Option ErrorData)
  /-- Any other code, with a value. -/
  | plain (code : Completion) (value : Value)
  deriving Inhabited, Repr

namespace Exception

/-! ## Making exceptions -/

/-- An error of a kind. -/
def ofKind (kind : ErrorKind) (message : String) : Exception :=
  error (.string message) { kind, code := .string kind.code, info := message }

def ofFault {ε : Type} [Fault ε] (fault : ε) : Exception :=
  ofKind (Fault.kind fault) (Fault.message fault)

/-- A `return -code error`: an error that comes up after `level` boundaries. -/
def returnError (message : Value) (level : Nat) (code? info? : Option Value) : Exception :=
  let data : ErrorData :=
    { kind := .generic
      code := code?.getD (.string "NONE")
      info := (info?.getD message).text }
  if level = 0 then error message data else returning message level .error (some data)

/-- An error raised by a script or by the host. -/
def raised (message : Value) (code? : Option Value) : Exception := returnError message 0 code? none

def returnValue (value : Value) : Exception := returning value 1 .okay none

def returnWith (value : Value) (level : Nat) (next : Completion) : Exception :=
  returning value level next none

def breakLoop : Exception := plain .broken {}

def continueLoop : Exception := plain .continued {}

def exit (status : Int) : Exception := plain (.exited status) {}

/-! ## Reading exceptions -/

def code : Exception → Completion
  | error _ _ => .error
  | returning _ _ _ _ => .returned
  | plain code _ => code

/-- The message of an error, or the value returned. -/
def value : Exception → Value
  | error v _ => v
  | returning v _ _ _ => v
  | plain _ v => v

def level : Exception → Nat
  | returning _ level _ _ => level
  | _ => 0

/-- The code the exception has once it has passed all its boundaries. -/
def next : Exception → Completion
  | returning _ _ next _ => next
  | e => e.code

def data? : Exception → Option ErrorData
  | error _ data => some data
  | returning _ _ _ data => data
  | plain _ _ => none

def kind? (e : Exception) : Option ErrorKind := e.data?.map (·.kind)

def isError (e : Exception) : Bool := e.code == .error

/-- Whether the exception has a trace to which nothing was added yet. -/
def isNew (e : Exception) : Bool := e.data?.any (·.isNew)

/-! ## Changing exceptions -/

/-- Adds a line to the trace. -/
def addInfo (e : Exception) (line : String) : Exception :=
  let add (data : ErrorData) : ErrorData :=
    { data with info := data.info ++ "\n" ++ line, isNew := false }
  match e with
  | error v data => error v (add data)
  | returning v level next data => returning v level next (data.map add)
  | plain code v => plain code v

/-- What a `return` becomes once it has no more boundaries to pass. -/
def settle (v : Value) (next : Completion) (data : Option ErrorData) : Exception :=
  match next with
  | .error =>
    error v (data.getD { kind := .generic, code := .string "NONE", info := v.text })
  | .returned => returning v 0 .returned data
  | code => plain code v

/-- Whether this is a `return` that has no boundary left to pass. -/
def isSpent : Exception → Bool
  | returning _ level _ _ => level == 0
  | _ => false

/-- What an exception that is not spent becomes as it passes a boundary. -/
def passBoundary : Exception → Exception
  | returning v level next data =>
    if level ≤ 1 then settle v next data else returning v (level - 1) next data
  | e => e

end Exception

end CommandScript
