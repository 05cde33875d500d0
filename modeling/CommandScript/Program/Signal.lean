/-!
# Signals and endings

A program ends of itself with a status, or a signal ends it. Signals have a number, a name and a
description.
-/

namespace CommandScript

/-- A signal, by its number. -/
abbrev Signal := Nat

namespace Signal

/-- The names and descriptions of the signals from 1 on. -/
def table : List (String × String) :=
  [("HUP", "Hangup"), ("INT", "Interrupt"), ("QUIT", "Quit"), ("ILL", "Illegal instruction"),
    ("TRAP", "Trace/breakpoint trap"), ("ABRT", "Aborted"), ("BUS", "Bus error"),
    ("FPE", "Floating point exception"), ("KILL", "Killed"), ("USR1", "User defined signal 1"),
    ("SEGV", "Segmentation fault"), ("USR2", "User defined signal 2"), ("PIPE", "Broken pipe"),
    ("ALRM", "Alarm clock"), ("TERM", "Terminated"), ("STKFLT", "Stack fault"),
    ("CHLD", "Child exited"), ("CONT", "Continued"), ("STOP", "Stopped (signal)"),
    ("TSTP", "Stopped"), ("TTIN", "Stopped (tty input)"), ("TTOU", "Stopped (tty output)"),
    ("URG", "Urgent I/O condition"), ("XCPU", "CPU time limit exceeded"),
    ("XFSZ", "File size limit exceeded"), ("VTALRM", "Virtual timer expired"),
    ("PROF", "Profiling timer expired"), ("WINCH", "Window changed"), ("IO", "I/O possible"),
    ("PWR", "Power failure"), ("SYS", "Bad system call")]

/-- One more than the largest signal. -/
def count : Nat := 65

def name? (s : Signal) : Option String :=
  match s with
  | 0 => none
  | n + 1 => table[n]?.map Prod.fst

def description (s : Signal) : String :=
  match s with
  | 0 => "Unknown signal 0"
  | n + 1 =>
    match table[n]? with
    | some entry => entry.2
    | none =>
      if s < 34 then "Unknown signal " ++ toString s
      else "Real-time signal " ++ toString (s - 34)

/-- Signals that a program does not notice unless it asks for them. -/
def isIgnored (s : Signal) : Bool :=
  s == 0 || [some "CHLD", some "CONT", some "URG", some "WINCH"].contains (name? s)

end Signal

/-- How a program ended. -/
inductive Ending where
  | exited (status : Nat)
  | killed (signal : Signal)
  deriving DecidableEq, Repr, Inhabited

namespace Ending

def isSuccess (e : Ending) : Bool := e == exited 0

/-- The status that a shell sees. -/
def status : Ending → Nat
  | exited status => status
  | killed signal => signal + 128

/-- How the system reports it. -/
def describe : Ending → String
  | exited status => s!"exit status: {status}"
  | killed signal =>
    match signal.name? with
    | some name => s!"signal: {signal} (SIG{name})"
    | none => s!"signal: {signal}"

end Ending

end CommandScript
