import Outfitter.Yaml.Cursor

/-! # Scalars of YAML

Plain and quoted scalars fold their line breaks: a single one becomes a blank, of several
the first is dropped. Block scalars keep their lines or fold them.
-/

namespace Outfitter.Yaml

inductive Style where
  | plain
  | singleQuoted
  | doubleQuoted
  | literal
  | folded
  deriving DecidableEq, Repr

/-- What stands between two words: blanks, or line breaks. -/
structure Gap where
  blanks : List Char
  breaks : List Char

namespace Gap

/-- The text that a gap counts as. -/
def text (g : Gap) : List Char :=
  match g.breaks with
  | [] => g.blanks
  | ['\n'] => [' ']
  | '\n' :: more => more
  | breaks => breaks

/-- Reads a gap. Blanks count only before the first line break; `escaped` says that one
stands before the gap and is not written. A tab left of column `indent` on a later line is
refused. -/
def read? (indent : Nat) (escaped : Bool) : Nat → Gap → Cursor → Option (Gap × Cursor)
  | 0, g, c => some (g, c)
  | fuel + 1, g, c =>
    match c.rest with
    | [] => some (g, c)
    | ch :: _ =>
      let later := escaped || !g.breaks.isEmpty
      if isSpace ch then
        if later && c.column < indent && ch == '\t' then none
        else if later then read? indent escaped fuel g (c.skip 1)
        else read? indent escaped fuel ⟨g.blanks ++ [ch], []⟩ (c.skip 1)
      else if isBreak ch then
        let (b, c) := c.breakLine
        read? indent escaped fuel ⟨[], g.breaks ++ b⟩ c
      else some (g, c)

end Gap

/-! ## Plain scalars -/

def isFlowMark (c : Char) : Bool := c == ',' || c == '[' || c == ']' || c == '\x7b' || c == '\x7d'

/-- The characters of a plain scalar up to a gap or an indicator that ends it. -/
def plainWord? (flow : Bool) : List Char → Option (List Char)
  | [] => some []
  | ch :: rest =>
    let next := rest.head?
    if isGap ch then some []
    else if flow && ch == ':' && next.any (fun n => n == '?' || isFlowMark n) then none
    else if (ch == ':' && endsWord rest) || (flow && isFlowMark ch) then some []
    else (plainWord? flow rest).map (ch :: ·)

/-- Reads on in a plain scalar that continues at columns from `indent`; `gap` is what stands
before the next word. The last result says whether the scalar ended on a later line. -/
def plainFrom? (flow : Bool) (indent : Nat) :
    Nat → List Char → Gap → Cursor → Option (List Char × Bool × Cursor)
  | 0, text, gap, c => some (text, !gap.breaks.isEmpty, c)
  | fuel + 1, text, gap, c =>
    if c.atMarker || c.rest.head? == some '#' then some (text, !gap.breaks.isEmpty, c)
    else
      (plainWord? flow c.rest).bind fun word =>
        let c := c.skip word.length
        let text := if word.isEmpty then text else text ++ gap.text ++ word
        let gap := if word.isEmpty then gap else ⟨[], []⟩
        if !(c.rest.head?.any isGap) then some (text, !gap.breaks.isEmpty, c)
        else
          (Gap.read? indent false (c.rest.length + 1) gap c).bind fun (gap, c) =>
            if !flow && c.column < indent then some (text, !gap.breaks.isEmpty, c)
            else plainFrom? flow indent fuel text gap c

/-! ## Quoted scalars -/

def hexDigit? (c : Char) : Option Nat :=
  if c.isDigit then some (c.toNat - 48)
  else if 'a' ≤ c && c ≤ 'f' then some (c.toNat - 87)
  else if 'A' ≤ c && c ≤ 'F' then some (c.toNat - 55)
  else none

def hexNumber? (cs : List Char) : Option Nat :=
  cs.foldlM (fun n c => (hexDigit? c).map (n * 16 + ·)) 0

/-- The character of a code with as many digits as asked for. -/
def codePoint? (digits : Nat) (cs : List Char) : Option Char :=
  let ds := cs.take digits
  if ds.length < digits then none
  else
    (hexNumber? ds).bind fun n =>
      if (0xD800 ≤ n && n ≤ 0xDFFF) || 0x10FFFF < n then none else some (Char.ofNat n)

def simpleEscape? : Char → Option Char
  | '0' => some '\x00'
  | 'a' => some '\x07'
  | 'b' => some '\x08'
  | 't' => some '\t'
  | '\t' => some '\t'
  | 'n' => some '\n'
  | 'v' => some '\x0b'
  | 'f' => some '\x0c'
  | 'r' => some '\r'
  | 'e' => some '\x1b'
  | ' ' => some ' '
  | '"' => some '"'
  | '/' => some '/'
  | '\\' => some '\\'
  | 'N' => some '\u0085'
  | '_' => some '\u00a0'
  | 'L' => some '\u2028'
  | 'P' => some '\u2029'
  | _ => none

/-- The character that an escape stands for, and the length of what follows its backslash. -/
def escape? : List Char → Option (Char × Nat)
  | 'x' :: cs => (codePoint? 2 cs).map (·, 3)
  | 'u' :: cs => (codePoint? 4 cs).map (·, 5)
  | 'U' :: cs => (codePoint? 8 cs).map (·, 9)
  | c :: _ => (simpleEscape? c).map (·, 1)
  | [] => none

/-- The characters of a quoted scalar up to a gap or the closing quote. The second result
says whether a line break was escaped there. -/
def quotedWord? (single : Bool) : Nat → List Char → Cursor → Option (List Char × Bool × Cursor)
  | 0, text, c => some (text, false, c)
  | fuel + 1, text, c =>
    match c.rest with
    | [] => some (text, false, c)
    | ch :: rest =>
      if isGap ch then some (text, false, c)
      else if single then
        match ch, rest with
        | '\'', '\'' :: _ => quotedWord? single fuel (text ++ ['\'']) (c.skip 2)
        | '\'', _ => some (text, false, c)
        | _, _ => quotedWord? single fuel (text ++ [ch]) (c.skip 1)
      else if ch == '"' then some (text, false, c)
      else if ch == '\\' then
        if (c.skip 1).atBreak then some (text, true, ((c.skip 1).breakLine).2)
        else
          (escape? rest).bind fun (e, n) => quotedWord? single fuel (text ++ [e]) (c.skip (n + 1))
      else quotedWord? single fuel (text ++ [ch]) (c.skip 1)

/-- Reads on in a quoted scalar, up to and past the closing quote. -/
def quotedFrom? (single : Bool) : Nat → List Char → Cursor → Option (List Char × Cursor)
  | 0, _, _ => none
  | fuel + 1, text, c =>
    if c.atMarker || c.atEnd then none
    else
      (quotedWord? single (c.rest.length + 1) text c).bind fun (text, escaped, c) =>
        let quote := if single then '\'' else '"'
        if c.rest.head? == some quote then some (text, c.skip 1)
        else
          (Gap.read? 0 escaped (c.rest.length + 1) ⟨[], []⟩ c).bind fun (gap, c) =>
            quotedFrom? single fuel (text ++ if escaped then gap.breaks else gap.text) c

/-! ## Block scalars -/

inductive Chomping where
  | strip
  | clip
  | keep
  deriving DecidableEq, Repr

/-- Reads empty lines and the indentation of the first line that is not. A given `indent`
bounds the indentation; without one the widest line is returned. -/
def emptyLines? (indent : Option Nat) :
    Nat → List Char → Nat → Cursor → Option (List Char × Nat × Cursor)
  | 0, breaks, widest, c => some (breaks, widest, c)
  | fuel + 1, breaks, widest, c =>
    let room := match indent with
      | some n => n - c.column
      | none => c.rest.length
    let c := c.skip ((c.rest.takeWhile (· == ' ')).length.min room)
    let widest := widest.max c.column
    let short := match indent with
      | some n => c.column < n
      | none => true
    if short && c.rest.head? == some '\t' then none
    else if c.atBreak then
      let (b, c) := c.breakLine
      emptyLines? indent fuel (breaks ++ b) widest c
    else some (breaks, widest, c)

/-- Reads the lines of a block scalar. `lead` is the break after the line before, which began
with a blank if `blank` says so; `breaks` are those of the empty lines after it. -/
def blockLines? (folded : Bool) (indent : Nat) :
    Nat → List Char → List Char → Bool → List Char → Cursor →
      Option (List Char × List Char × List Char × Cursor)
  | 0, text, lead, _, breaks, c => some (text, lead, breaks, c)
  | fuel + 1, text, lead, blank, breaks, c =>
    if c.column != indent || c.atEnd then some (text, lead, breaks, c)
    else
      let startsBlank := c.rest.head?.any isSpace
      let joined :=
        if folded && lead == ['\n'] && !blank && !startsBlank then
          if breaks.isEmpty then [' '] else breaks
        else lead ++ breaks
      let line := c.rest.takeWhile (fun ch => !isBreak ch)
      let (lead, c) := (c.skip line.length).breakLine
      (emptyLines? (some indent) (c.rest.length + 1) [] 0 c).bind fun (breaks, _, c) =>
        blockLines? folded indent fuel (text ++ joined ++ line) lead startsBlank breaks c

/-- The header of a block scalar: how its end is chomped and by how much it is indented. -/
def blockHeader? : List Char → Option (Chomping × Nat × Nat)
  | '+' :: rest => (indentDigit? rest).map fun (n, k) => (.keep, n, k + 1)
  | '-' :: rest => (indentDigit? rest).map fun (n, k) => (.strip, n, k + 1)
  | d :: '+' :: rest => (indentDigit? (d :: '+' :: rest)).map fun (n, k) =>
      if k = 1 then (.keep, n, 2) else (.clip, 0, 0)
  | d :: '-' :: rest => (indentDigit? (d :: '-' :: rest)).map fun (n, k) =>
      if k = 1 then (.strip, n, 2) else (.clip, 0, 0)
  | rest => (indentDigit? rest).map fun (n, k) => (.clip, n, k)
where
  /-- An indentation from 1 to 9, zero for none, and the number of its digits. -/
  indentDigit? : List Char → Option (Nat × Nat)
    | d :: _ => if d == '0' then none else if d.isDigit then some (d.toNat - 48, 1) else some (0, 0)
    | [] => some (0, 0)

/-- Reads a block scalar after its indicator; `parent` is the indentation around it. -/
def blockScalar? (folded : Bool) (parent : Int) (c : Cursor) : Option (List Char × Cursor) :=
  (blockHeader? c.rest).bind fun (chomping, increment, n) =>
    let c := ((c.skip n).skipWhile isSpace).skipComment
    if !(c.atBreak || c.atEnd) then none
    else
      let c := c.breakLine.2
      let given : Option Nat :=
        if increment = 0 then none
        else some (if 0 ≤ parent then parent.toNat + increment else increment)
      (emptyLines? given (c.rest.length + 1) [] 0 c).bind fun (breaks, widest, c) =>
        let indent := given.getD ((widest.max (parent + 1).toNat).max 1)
        (blockLines? folded indent (c.rest.length + 1) [] [] false breaks c).map
          fun (text, lead, breaks, c) =>
            let tail := match chomping with
              | .strip => []
              | .clip => lead
              | .keep => lead ++ breaks
            (text ++ tail, c)

end Outfitter.Yaml
