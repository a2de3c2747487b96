import Confection.CommandLine.Options
import Confection.Draw.Sources
import Confection.Pull
import Confection.Recipe

/-!
# What a run does

A run loads a recipe and writes strings, one a line.  With `--all` it lists the strings of a bounded
pattern; otherwise, and where the pattern is not bounded, it draws strings at random.  How many is
given by the count: by default all of a listing, a thousand in the place of a listing, and one
otherwise.

A job is a run of which the recipe is loaded.  It gives its lines one by one, so a long listing can
be written while it is made.
-/

namespace Confection.CommandLine

/-- Why a file cannot be read. -/
inductive ReadFailure where
  /-- There is no such file. -/
  | notFound
  /-- The file's bytes are not UTF-8. -/
  | notText
  /-- The system gives another reason. -/
  | other (reason : Text)

/-- The failure in words. -/
def ReadFailure.message : ReadFailure → Text
  | notFound => "No such file or directory (os error 2)".toList
  | notText => "stream did not contain valid UTF-8".toList
  | other reason => reason

/-- Puts `lead` in front of a text and `indent` in front of its further lines, and ends it. -/
def indented (lead indent : String) (t : Text) : Text :=
  lead.toList ++ (['\n'] ++ indent.toList).intercalate t.lines ++ ['\n']

/-- The report that a recipe cannot be loaded, with its causes. -/
def report (path : Text) (causes : Text) : Text :=
  "Error: Failed to load recipe ".toList ++ path ++ "\n\nCaused by:\n".toList ++ causes

/-- The report on a recipe that cannot be used. -/
def reportError (path : Text) (e : Error) : Text :=
  report path (indented "    " "    " e.message.toList)

/-- The report on a file that cannot be read. -/
def reportFailure (path : Text) (f : ReadFailure) : Text :=
  report path <|
    indented "    0: " "       " ("Failed to read ".toList ++ path ++ ": ".toList ++ f.message) ++
      indented "    1: " "       " f.message

/-- A run with a loaded recipe, and how many lines it may still write. -/
inductive Job where
  | listing (strings : Listing) (left : Nat)
  | sampling (recipe : Recipe) (bounds : LengthBounds) (source : Generator) (left : Nat)

namespace Job

/-- How many strings are drawn where a listing was asked for and is not possible. -/
def sampleCount : Nat := 1000

/-- No run writes more lines than this. -/
def maxCount : Nat := UInt64.size - 1

/-- The job for a recipe.  `entropy` is the seed where none is given. -/
def ofRecipe (o : Options) (entropy : UInt64) (r : Recipe) : Job :=
  let source := .seeded (.ofSeed ((o.seed.map UInt64.ofNat).getD entropy))
  let bounds := { min := o.min, max := o.max }
  if o.all then
    match r.formula.strings with
    | .ok strings => .listing strings (o.count.getD maxCount)
    | .error _ => .sampling r bounds source (o.count.getD sampleCount)
  else .sampling r bounds source (o.count.getD 1)

/-- The settings that the options ask for. -/
def settings (o : Options) : Settings :=
  { attempts := o.attempts.getD 100
    duplicates := if o.strictDuplicates then .reject else .lastWins }

/-- The job for the contents of the recipe's file, or the report that there is none. -/
def start (o : Options) (entropy : UInt64) (contents : Except ReadFailure Text) : Except Text Job :=
  match contents with
  | .error f => .error (reportFailure o.path f)
  | .ok t =>
    match Recipe.ofText t (settings o) with
    | .error e => .error (reportError o.path e)
    | .ok r => .ok (ofRecipe o entropy r)

/-- The next line, and the job after it. -/
def next? : Job → Option (Text × Job)
  | .listing _ 0 => none
  | .listing l (left + 1) => l.next?.map fun (t, l) => (t, .listing l left)
  | .sampling _ _ _ 0 => none
  | .sampling r bounds source (left + 1) =>
    let (sample, source) := r.formula.sample r.settings bounds source
    some (sample.text, .sampling r bounds source left)

/-- How many lines the job may still write. -/
def left : Job → Nat
  | .listing _ n => n
  | .sampling _ _ _ n => n

/-- All lines of the job. -/
def lines (j : Job) : List Text := (pull next? j.left j).1

end Job

/-- What a finished run leaves: its exit code and what it has written. -/
structure Outcome where
  exitCode : Nat
  output : Text
  errors : Text

/-- How the command line is used. -/
def usage : Text :=
  ("Usage: confection [-a|--all] [-n|--count COUNT] [--min N] [--max N] [-s|--seed SEED]\n" ++
    "  [--attempts N] [--strict-duplicates] RECIPE\n").toList

/-- A whole run, where `contents` gives what can be read at a path. -/
def run (contents : Text → Except ReadFailure Text) (entropy : UInt64) (arguments : List Text) :
    Outcome :=
  match Options.ofArguments? arguments with
  | none => ⟨2, [], usage⟩
  | some o =>
    match Job.start o entropy (contents o.path) with
    | .error e => ⟨1, [], e⟩
    | .ok job => ⟨0, job.lines.flatMap (· ++ ['\n']), []⟩

end Confection.CommandLine
