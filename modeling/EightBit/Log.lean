import EightBit.Fault

/-! A log that keeps the entries its verbosity admits. -/
namespace EightBit

/-- From the most to the least urgent. -/
inductive Level where
  | error | warn | info | debug | trace
  deriving DecidableEq, Inhabited

namespace Level

def rank : Level → Nat
  | error => 1
  | warn => 2
  | info => 3
  | debug => 4
  | trace => 5

def name : Level → String
  | error => "ERROR"
  | warn => "WARN"
  | info => "INFO"
  | debug => "DEBUG"
  | trace => "TRACE"

def all : List Level :=
  [error, warn, info, debug, trace]

end Level

/-- The least urgent level that is logged, if any. -/
inductive Verbosity where
  | off
  | upTo (level : Level)
  deriving DecidableEq, Inhabited

namespace Verbosity

def admits : Verbosity → Level → Bool
  | off, _ => false
  | upTo least, level => decide (level.rank ≤ least.rank)

def name : Verbosity → String
  | off => "OFF"
  | upTo level => level.name

def all : List Verbosity :=
  off :: Level.all.map upTo

/-- The name may be in any mixture of upper and lower case. -/
def ofName? (name : String) : Option Verbosity :=
  all.find? fun v => v.name.toList == name.toList.map Char.toUpper

end Verbosity

/-- The part of the program that writes an entry. -/
inductive Origin where
  | commandLine | processor | loader
  deriving DecidableEq, Inhabited

def Origin.label : Origin → String
  | commandLine => "ls8"
  | processor => "ls8::processor"
  | loader => "ls8::memory::parse"

structure Entry where
  level : Level
  origin : Origin
  text : String
  deriving DecidableEq, Inhabited

namespace Entry

/-- The level and the text, without the origin. -/
def brief (e : Entry) : String :=
  e.level.name ++ " " ++ e.text

/-- The level filled to five columns, the origin in brackets and the text. -/
def line (e : Entry) : String :=
  String.ofList (e.level.name.toList.rightpad 5 ' ') ++ " [" ++ e.origin.label ++ "] " ++ e.text

end Entry

structure Log where
  verbosity : Verbosity
  entries : Array Entry
  deriving DecidableEq, Inhabited

namespace Log

def empty (verbosity : Verbosity) : Log :=
  ⟨verbosity, #[]⟩

/-- Keeps the entry if its level is admitted; otherwise the text is not evaluated. -/
def record (log : Log) (level : Level) (origin : Origin) (text : Unit → String) : Log :=
  if log.verbosity.admits level then
    { log with entries := log.entries.push ⟨level, origin, text ()⟩ }
  else log

/-- Like `record`, for a text whose evaluation may meet a fault. -/
def tryRecord (log : Log) (level : Level) (origin : Origin) (text : Unit → Except Fault String) :
    Except Fault Log :=
  if log.verbosity.admits level then
    match text () with
    | .ok t => .ok (log.record level origin fun _ => t)
    | .error fault => .error fault
  else .ok log

variable {log : Log} {level : Level} {origin : Origin}

@[simp] theorem verbosity_record (text : Unit → String) :
    (log.record level origin text).verbosity = log.verbosity := by
  unfold record
  split <;> rfl

/-- A record appends its entry if the level is admitted, and nothing otherwise. -/
theorem entries_record (text : Unit → String) : (log.record level origin text).entries =
    log.entries ++ (if log.verbosity.admits level then #[⟨level, origin, text ()⟩] else #[]) := by
  unfold record
  split <;> simp

theorem tryRecord_ok (text : Unit → String) :
    (log.tryRecord level origin fun u => .ok (text u)) = .ok (log.record level origin text) := by
  unfold tryRecord record
  split <;> rfl

end Log
end EightBit
