/-! # Arguments

The arguments of a command are options with values, flags and words, in any order. They are
read from left to right up to the first mistake, the first request for the version or for
help, or the name of a command below, which has arguments of its own.
-/

namespace Outfitter.Command

/-- What a command accepts. -/
structure Shape where
  /-- The names of options with a value, and the values that each accepts. -/
  options : List (String × (String → Bool)) := []
  flags : List String := []
  /-- How many words it takes; none of them is empty. -/
  words : Nat := 0
  /-- The names of the commands below it. -/
  commands : List String := []

/-- What was given. -/
structure Given where
  values : List (String × String) := []
  flags : List String := []
  words : List String := []
  deriving DecidableEq, Repr

/-- How reading ended. -/
inductive Reading where
  | done (g : Given)
  | command (g : Given) (name : String) (rest : List String)
  | version
  | help
  | misuse
  deriving DecidableEq, Repr

inductive Argument where
  /-- An option by its name, with the value after an equals sign. -/
  | option (name : String) (value : Option String)
  /-- Options of one letter, of which the first decides. -/
  | letters (first : Char)
  | word (text : String)
  deriving DecidableEq, Repr

def Argument.ofText (text : String) : Argument :=
  match text.toList with
  | '-' :: '-' :: cs =>
    let name := cs.takeWhile (· != '=')
    .option (String.ofList name)
      (if name.length = cs.length then none else some (String.ofList (cs.drop (name.length + 1))))
  | '-' :: c :: _ => .letters c
  | _ => .word text

namespace Shape

/-- Adds a word, if there is room for it. -/
def word? (sh : Shape) (g : Given) (w : String) : Option Given :=
  if g.words.length < sh.words && !w.isEmpty then some { g with words := g.words ++ [w] } else none

/-- Adds an option, which is given once. -/
def option? (sh : Shape) (g : Given) (name value : String) : Option Given :=
  match sh.options.lookup name with
  | some accepts =>
    if accepts value && (g.values.lookup name).isNone then
      some { g with values := (name, value) :: g.values }
    else none
  | none => none

/-- Adds a flag, which is given once. -/
def flag? (sh : Shape) (g : Given) (name : String) : Option Given :=
  if sh.flags.contains name && !g.flags.contains name then
    some { g with flags := name :: g.flags }
  else none

def readWords (sh : Shape) : Given → List String → Reading
  | g, [] => .done g
  | g, w :: rest =>
    match sh.word? g w with
    | some g => sh.readWords g rest
    | none => .misuse

/-- Reads arguments. After two dashes there are only words. -/
def read (sh : Shape) : Given → List String → Reading
  | g, [] => .done g
  | g, arg :: rest =>
    if arg = "--" then sh.readWords g rest
    else
      match Argument.ofText arg with
      | .option "version" none => .version
      | .option "help" none => .help
      | .option name (some value) =>
        match sh.option? g name value with
        | some g => sh.read g rest
        | none => .misuse
      | .option name none =>
        if (sh.options.lookup name).isSome then
          match rest with
          | [] => .misuse
          | value :: rest =>
            match Argument.ofText value, sh.option? g name value with
            | .word _, some g => sh.read g rest
            | _, _ => .misuse
        else
          match sh.flag? g name with
          | some g => sh.read g rest
          | none => .misuse
      | .letters 'V' => .version
      | .letters 'h' => .help
      | .letters _ => .misuse
      | .word w =>
        if sh.commands.contains w then .command g w rest
        else
          match sh.word? g w with
          | some g => sh.read g rest
          | none => .misuse

end Shape

end Outfitter.Command
