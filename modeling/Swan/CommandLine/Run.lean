import Swan.CommandLine.Directory
import Swan.CommandLine.Options
import Swan.Console.Inspect

/-! The command line: run a cartridge without a display for a number of frames, and
show the processor afterwards if asked to. Files are read through a function of the
caller's, so everything else here is pure. -/
namespace Swan.CommandLine

structure Outcome where
  code : UInt8 := 0
  stdout : String := ""
  stderr : String := ""
  deriving DecidableEq, Repr

def failure (doing cause : String) : Outcome :=
  { code := 1, stderr := s!"Error: {doing}\n\nCaused by:\n    {cause}\n" }

/-- A console with no devices, observers or hooks. -/
abbrev Machine := Console Empty Empty Empty

def runFrames : Nat → Machine → Machine
  | 0, m => m
  | n + 1, m =>
    match m.runFrame with
    | (.completed, m) => runFrames n m
    | (_, m) => m

/-- Every property of the processor, a line each. -/
def dump (m : Machine) : String :=
  String.join ((snapshot m.cpu).map fun (path, value) => s!"cpu.{path} = {value.display}\n")

def start (options : Options) (bootstrap : Option Image) (rom : Image) : Outcome :=
  let config : Config :=
    { model := options.model, bootstrap, rom, sramSize := options.sramSize }
  match (Console.build config : Except BuildError Machine) with
  | .error e => failure "building machine" e.message
  | .ok m =>
    let m := runFrames options.frames m
    { stdout := if options.dump then dump m else "" }

def readImage {m : Type → Type} [Monad m] (readFile : String → m (Except FileError Image))
    (what path : String) : ExceptT Outcome m Image := do
  match ← (readFile path : m _) with
  | .ok image => return image
  | .error e => throw (failure s!"reading {what} {path}" e.message)

/-- Read the images, the bootstrap first, and run. -/
def runWith {m : Type → Type} [Monad m] (readFile : String → m (Except FileError Image))
    (options : Options) : ExceptT Outcome m Outcome := do
  let bootstrap ← match options.bootstrap with
    | none => pure none
    | some path => some <$> readImage readFile "bootstrap ROM" path
  let rom ← readImage readFile "cartridge ROM" options.rom
  return start options bootstrap rom

def run {m : Type → Type} [Monad m] (readFile : String → m (Except FileError Image))
    (arguments : List String) : m Outcome := do
  match parse arguments with
  | .error .help => return { stdout := usage }
  | .error .badUsage => return { code := 2, stderr := usage }
  | .ok options =>
    match ← (runWith readFile options).run with
    | .ok outcome => return outcome
    | .error outcome => return outcome

/-- The whole program, in a directory held in memory. -/
def runIn (directory : Directory) (arguments : List String) : Outcome :=
  Id.run (run (fun path => pure (directory.read path)) arguments)

end Swan.CommandLine
