import Confection.Text.Basic

/-!
# Options

The arguments of the command line: the path of a recipe, flags, and options with a number.  An
option has a long form, `--count 3` or `--count=3`, and some have a short one, `-n 3`, `-n3` or
`-n=3`.  Short flags can be written together and with one option at the end, as in `-an3`.  After
`--` every argument is a path.  There must be exactly one path, and nothing may be given twice.
-/

namespace Confection.CommandLine

/-- An option that is only present or absent. -/
inductive Flag where
  | all
  | strictDuplicates
deriving DecidableEq

/-- An option with a number. -/
inductive Setting where
  | count
  | min
  | max
  | seed
  | attempts
deriving DecidableEq

/-- What an option's name stands for. -/
inductive Name where
  | flag (f : Flag)
  | setting (s : Setting)
deriving DecidableEq

/-- The meaning of a long name. -/
def Name.ofLong? (t : Text) : Option Name :=
  match String.ofList t with
  | "all" => some (.flag .all)
  | "strict-duplicates" => some (.flag .strictDuplicates)
  | "count" => some (.setting .count)
  | "min" => some (.setting .min)
  | "max" => some (.setting .max)
  | "seed" => some (.setting .seed)
  | "attempts" => some (.setting .attempts)
  | _ => none

/-- The meaning of a short name. -/
def Name.ofShort? : Char → Option Name
  | 'a' => some (.flag .all)
  | 'n' => some (.setting .count)
  | 's' => some (.setting .seed)
  | _ => none

/-- A number in decimal, with an optional plus sign, that fits into 64 bits. -/
def number? (t : Text) : Option Nat :=
  let digits := match t with
    | '+' :: rest => rest
    | t => t
  if digits.isEmpty || !digits.all Char.isDigit then none
  else
    let n := digits.foldl (fun n c => 10 * n + (c.toNat - '0'.toNat)) 0
    if n < UInt64.size then some n else none

/-- What has been given on a command line. -/
structure Given where
  paths : List Text := []
  flags : List Flag := []
  settings : List (Setting × Nat) := []

namespace Given

/-- Adds the path, of which there can be one. -/
def addPath (g : Given) (path : Text) : Option Given :=
  if g.paths.isEmpty then some { g with paths := [path] } else none

/-- Adds a flag that has not been given. -/
def addFlag (g : Given) (f : Flag) : Option Given :=
  if f ∈ g.flags then none else some { g with flags := f :: g.flags }

/-- Adds a setting that has not been given. -/
def addSetting (g : Given) (s : Setting) (value : Text) : Option Given := do
  let n ← number? value
  if (g.settings.lookup s).isSome then none else some { g with settings := (s, n) :: g.settings }

/-- Adds the short options written together.  If the last one is a setting without its number, that
is left to be read. -/
def addShort (g : Given) : Text → Option (Given × Option Setting)
  | [] => some (g, none)
  | c :: rest =>
    match Name.ofShort? c, rest with
    | none, _ => none
    | some (.flag f), rest => do (← g.addFlag f).addShort rest
    | some (.setting s), [] => some (g, some s)
    | some (.setting s), '=' :: value => do return (← g.addSetting s value, none)
    | some (.setting s), value => do return (← g.addSetting s value, none)

/-- Adds a long option, without its hyphens.  If it is a setting without its number, that is left to
be read. -/
def addLong (g : Given) (t : Text) : Option (Given × Option Setting) :=
  match t.splitAtFirst '=' with
  | none =>
    match Name.ofLong? t with
    | none => none
    | some (.flag f) => do return (← g.addFlag f, none)
    | some (.setting s) => some (g, some s)
  | some (name, value) =>
    match Name.ofLong? name with
    | some (.setting s) => do return (← g.addSetting s value, none)
    | _ => none

/-- Adds the arguments that are left.  `pending` is a setting whose number comes next. -/
def addAll (g : Given) (pending : Option Setting) : List Text → Option Given
  | [] => if pending.isSome then none else some g
  | argument :: rest =>
    match pending, argument with
    | some s, value => do (← g.addSetting s value).addAll none rest
    | none, ['-', '-'] => rest.foldlM addPath g
    | none, '-' :: '-' :: option => do
      let (g, pending) ← g.addLong option
      g.addAll pending rest
    | none, '-' :: c :: options => do
      let (g, pending) ← g.addShort (c :: options)
      g.addAll pending rest
    | none, path => do (← g.addPath path).addAll none rest

end Given

/-- The options of a run. -/
structure Options where
  path : Text
  all : Bool
  strictDuplicates : Bool
  count : Option Nat
  min : Option Nat
  max : Option Nat
  seed : Option Nat
  attempts : Option Nat
deriving DecidableEq

/-- The options that the arguments give, unless they are not used as they should be. -/
def Options.ofArguments? (arguments : List Text) : Option Options := do
  let g ← ({} : Given).addAll none arguments
  let path ← g.paths.head?
  return {
    path
    all := Flag.all ∈ g.flags
    strictDuplicates := Flag.strictDuplicates ∈ g.flags
    count := g.settings.lookup .count
    min := g.settings.lookup .min
    max := g.settings.lookup .max
    seed := g.settings.lookup .seed
    attempts := g.settings.lookup .attempts }

end Confection.CommandLine
