import Swan.Console.AddressText
import Swan.Console.Model

/-! What a run is asked to do, and how its arguments say so. Arguments are read from
the left, and the first one that asks for help or cannot be read decides. -/
namespace Swan.CommandLine

structure Options where
  model : Model := .mono
  bootstrap : Option String := none
  rom : String
  sramSize : Nat := 0
  frames : Nat := 60
  dump : Bool := false
  deriving DecidableEq, Repr

inductive Stop where
  | help
  | badUsage
  deriving DecidableEq, Repr

/-- Options as they were given, each at most once. -/
structure Given where
  model : Option Model := none
  bootstrap : Option String := none
  rom : Option String := none
  sramSize : Option Nat := none
  frames : Option Nat := none
  dump : Bool := false

/-- Decimal digits behind at most one plus sign, as a number of 64 bits. -/
def number? (text : String) : Option Nat :=
  (AddressText.number? 10 text.toList).filter (· < 1 <<< 64)

def model? : String → Option Model
  | "mono" => some .mono
  | "color" => some .color
  | _ => none

def path? (text : String) : Option String := if text.isEmpty then none else some text

/-- Fill a place that must be empty with a value that must be readable. -/
def fill {α : Type} (place : Option α) (read? : String → Option α) (text : String) :
    Except Stop (Option α) :=
  match place, read? text with
  | none, some a => .ok (some a)
  | _, _ => .error .badUsage

def Given.take (g : Given) (name value : String) : Except Stop Given :=
  match name with
  | "--model" => do return { g with model := ← fill g.model model? value }
  | "--bootstrap" => do return { g with bootstrap := ← fill g.bootstrap path? value }
  | "--rom" => do return { g with rom := ← fill g.rom path? value }
  | "--sram" => do return { g with sramSize := ← fill g.sramSize number? value }
  | "--frames" => do return { g with frames := ← fill g.frames number? value }
  | _ => .error .badUsage

/-- Split an argument at its first equals sign. -/
def splitValue? (argument : List Char) : Option (String × String) :=
  match argument.span (· != '=') with
  | (_, []) => none
  | (name, _ :: value) => some (String.ofList name, String.ofList value)

/-- Whether an argument cannot be the value of the option before it. A dash alone can. -/
def looksLikeOption (argument : String) : Bool :=
  argument != "-" && argument.toList.head? == some '-'

/-- The short form of the help option is heard whatever follows it in the argument. -/
def asksForHelp (argument : String) : Bool :=
  argument == "--help" || "-h".toList.isPrefixOf argument.toList

/-- Read options one by one. A value is the next argument, or follows an equals sign;
after two dashes nothing may come. -/
def read (g : Given) : List String → Except Stop Given
  | [] => .ok g
  | "--" :: rest => if rest.isEmpty then .ok g else .error .badUsage
  | "--dump" :: rest => if g.dump then .error .badUsage else read { g with dump := true } rest
  | argument :: rest =>
    if asksForHelp argument then .error .help
    else match splitValue? argument.toList with
    | some (name, value) => do read (← g.take name value) rest
    | none =>
      match rest with
      | [] => .error .badUsage
      | value :: rest =>
        if looksLikeOption value then .error .badUsage
        else do read (← g.take argument value) rest

/-- The options of a run. The image of the cartridge must be named. -/
def parse (arguments : List String) : Except Stop Options := do
  let g ← read {} arguments
  match g.rom with
  | none => throw .badUsage
  | some rom => return {
    rom
    model := g.model.getD .mono
    bootstrap := g.bootstrap
    sramSize := g.sramSize.getD 0
    frames := g.frames.getD 60
    dump := g.dump }

def usage : String :=
  "usage: swan --rom FILE [--bootstrap FILE] [--model mono|color] [--sram BYTES] " ++
    "[--frames N] [--dump]\n"

end Swan.CommandLine
