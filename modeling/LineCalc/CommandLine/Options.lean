import LineCalc.Error
import LineCalc.Evaluate
/-!
# LineCalc.CommandLine.Options

The **arguments of the program**: flags, and the words of an expression.

Up to the first `--`, an argument is a flag, or it is refused because it looks
like one, or it is a word. Behind `--` every argument is a word. A hyphen in
front of a digit makes a negative number and a hyphen alone makes an operator,
so neither looks like a flag. The words are joined by single spaces; an empty
word counts, so an expression may be empty and yet be there.
-/

namespace LineCalc.CommandLine

open Bytes (ofString)

/-- An argument that changes how the program runs. -/
inductive Flag
  /-- Show how the program is used. -/
  | help
  /-- Show tokens and reductions as well. -/
  | verbose
  /-- Evaluate with the reverse Polish engine. -/
  | rpn
  deriving Repr, DecidableEq

namespace Flag

/-- How each flag is written. -/
def spellings : List (Bytes × Flag) :=
  [(ofString "-h", help), (ofString "--help", help),
   (ofString "-v", verbose), (ofString "--verbose", verbose),
   (ofString "--rpn", rpn)]

/-- The flag that an argument spells. -/
def ofArgument? (arg : Bytes) : Option Flag := spellings.lookup arg

end Flag

/-- The argument that ends the flags. -/
def endOfFlags : Bytes := ofString "--"

/-- Whether an argument has the form of a flag: a hyphen with something behind it
that is no digit. -/
def looksLikeFlag : Bytes → Bool
  | first :: second :: _ => first == Byte.hyphen && !Byte.isDigit second
  | _ => false

/-- What the arguments ask for. -/
structure Options where
  help : Bool
  verbose : Bool
  engine : Engine
  /-- The words, if there are any; without words lines are read instead. -/
  expression : Option Bytes
  deriving Repr, DecidableEq

namespace Options

/-- What no arguments ask for. -/
def default : Options := ⟨false, false, .reduction, none⟩

/-- Sets a flag. -/
def set (opts : Options) : Flag → Options
  | .help => { opts with help := true }
  | .verbose => { opts with verbose := true }
  | .rpn => { opts with engine := .rpn }

/-- Adds a word to the expression. -/
def addWord (opts : Options) (word : Bytes) : Options :=
  { opts with expression := some (match opts.expression with
      | none => word
      | some words => words ++ Byte.space :: word) }

/-- Reads the arguments behind those that led to `opts`. -/
def parseFrom (opts : Options) : List Bytes → Except UsageError Options
  | [] => .ok opts
  | arg :: rest =>
    if arg = endOfFlags then .ok (rest.foldl addWord opts)
    else match Flag.ofArgument? arg with
      | some flag => parseFrom (opts.set flag) rest
      | none =>
        if looksLikeFlag arg then .error (.unknownOption arg)
        else parseFrom (opts.addWord arg) rest

/-- Reads the arguments of the program. -/
def parse (args : List Bytes) : Except UsageError Options := parseFrom default args

end Options

/-- The value that arguments ask for, if they hold an expression. -/
def argumentsValue (args : List Bytes) : Except Error (Option Number) :=
  match Options.parse args with
  | .error e => .error (.usage e)
  | .ok opts =>
    match opts.expression with
    | none => .ok none
    | some line => some <$> evaluate line opts.engine

end LineCalc.CommandLine
