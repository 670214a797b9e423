import Outfitter.Yaml.Scalar

/-! # Tokens of YAML

A text is cut into tokens. Blocks are told by indentation, so tokens that open and close them
are added. A simple key is found only at the colon after it: until then the place where it
began is kept, one for each level of flow brackets, and its tokens are put there.
-/

namespace Outfitter.Yaml

inductive Token where
  | version (major minor : Nat)
  | handle (name expansion : String)
  | documentStart
  | documentEnd
  | sequenceStart
  | mappingStart
  | blockEnd
  | flowSequenceStart
  | flowSequenceEnd
  | flowMappingStart
  | flowMappingEnd
  | entry
  | comma
  | key
  | value
  | alias (name : String)
  | anchor (name : String)
  | tag (handle suffix : String)
  | scalar (style : Style) (text : String)
  deriving DecidableEq, Repr

/-- A place where a simple key may have begun. A required one stands where its block must
have a key. -/
structure KeyPlace where
  required : Bool
  number : Nat
  index : Nat
  line : Nat
  column : Nat

/-- What is known before the cursor: the tokens so far, the last one first, the open blocks
with the innermost first, and the place of a key at each flow level. -/
structure Scan where
  cursor : Cursor
  tokens : List Token
  indent : Int
  outer : List Int
  place : Option KeyPlace
  places : List (Option KeyPlace)
  keyAllowed : Bool

namespace Scan

def start (text : List Char) : Scan := ⟨Cursor.start text, [], -1, [], none, [], true⟩

/-- The cursor stands inside flow brackets. -/
def inFlow (s : Scan) : Bool := !s.places.isEmpty

def emit (s : Scan) (t : Token) : Scan := { s with tokens := t :: s.tokens }

def skip (s : Scan) (n : Nat) : Scan := { s with cursor := s.cursor.skip n }

/-- Puts a token before the one with the given number. -/
def insert (s : Scan) (number : Nat) (t : Token) : Scan :=
  let later := s.tokens.length - number
  { s with tokens := s.tokens.take later ++ t :: s.tokens.drop later }

/-! ## Blanks -/

/-- Goes past blanks, comments and line breaks. Tabs are no blanks where a key of a block may
begin. -/
def skipBlanks : Nat → Scan → Scan
  | 0, s => s
  | fuel + 1, s =>
    let c := s.cursor
    let c := if c.column == 0 && c.rest.head? == some '\ufeff' then c.skip 1 else c
    let tabs := s.inFlow || !s.keyAllowed
    let c := (c.skipWhile (fun ch => ch == ' ' || (tabs && ch == '\t'))).skipComment
    if c.atBreak then
      skipBlanks fuel { s with cursor := c.breakLine.2, keyAllowed := s.keyAllowed || !s.inFlow }
    else { s with cursor := c }

/-! ## Indentation -/

def openBlock (s : Scan) (column : Nat) (number : Nat) (t : Token) : Scan :=
  if !s.inFlow && s.indent < column then
    { s.insert number t with indent := column, outer := s.indent :: s.outer }
  else s

/-- Closes the blocks right of a column. -/
def closeBlocks (s : Scan) (column : Int) : Scan :=
  if s.inFlow then s else go s.outer { s with outer := [] }
where
  go : List Int → Scan → Scan
    | [], s => s
    | i :: rest, s =>
      if column < s.indent then go rest { s.emit .blockEnd with indent := i }
      else { s with outer := i :: rest }

/-! ## Simple keys -/

/-- Gives up the place of a key, which fails for a required one. -/
def dropPlace? (s : Scan) : Option Scan :=
  if s.place.any (·.required) then none else some { s with place := none }

/-- A key stands on one line and is not longer than 1024 characters. -/
def isStale (s : Scan) (k : KeyPlace) : Bool :=
  k.line < s.cursor.line || k.index + 1024 < s.cursor.index

def dropStale? (s : Scan) : Option Scan :=
  if (s.place :: s.places).any (·.any fun k => k.required && s.isStale k) then none
  else
    let fresh := fun (p : Option KeyPlace) => p.filter fun k => !s.isStale k
    some { s with place := fresh s.place, places := s.places.map fresh }

/-- Notes that a key may begin here, if it may. -/
def markPlace? (s : Scan) : Option Scan :=
  if s.keyAllowed then
    let c := s.cursor
    let required := !s.inFlow && s.indent == c.column
    s.dropPlace?.map fun s =>
      { s with place := some ⟨required, s.tokens.length, c.index, c.line, c.column⟩ }
  else some s

/-! ## Indicators -/

def openFlow? (s : Scan) (t : Token) : Option Scan :=
  s.markPlace?.map fun s =>
    { (s.emit t).skip 1 with place := none, places := s.place :: s.places, keyAllowed := true }

def closeFlow? (s : Scan) (t : Token) : Option Scan :=
  s.dropPlace?.map fun s =>
    { (s.emit t).skip 1 with
      place := s.places.head?.getD none, places := s.places.tail, keyAllowed := false }

def comma? (s : Scan) : Option Scan :=
  s.dropPlace?.map fun s => { (s.emit .comma).skip 1 with keyAllowed := true }

def entry? (s : Scan) : Option Scan :=
  if !s.inFlow && !s.keyAllowed then none
  else
    (s.openBlock s.cursor.column s.tokens.length .sequenceStart).dropPlace?.map fun s =>
      { (s.emit .entry).skip 1 with keyAllowed := true }

def key? (s : Scan) : Option Scan :=
  if !s.inFlow && !s.keyAllowed then none
  else
    (s.openBlock s.cursor.column s.tokens.length .mappingStart).dropPlace?.map fun s =>
      { (s.emit .key).skip 1 with keyAllowed := !s.inFlow }

def value? (s : Scan) : Option Scan :=
  match s.place with
  | some k =>
    let s := (s.insert k.number .key).openBlock k.column k.number .mappingStart
    some { (s.emit .value).skip 1 with place := none, keyAllowed := false }
  | none =>
    if !s.inFlow && !s.keyAllowed then none
    else
      let s := s.openBlock s.cursor.column s.tokens.length .mappingStart
      some { (s.emit .value).skip 1 with keyAllowed := !s.inFlow }

/-- A line that begins a document or ends one. -/
def marker? (s : Scan) (t : Token) : Option Scan :=
  (s.closeBlocks (-1)).dropPlace?.map fun s => { (s.emit t).skip 3 with keyAllowed := false }

/-! ## Anchors and tags -/

def reference? (s : Scan) (token : String → Token) : Option Scan :=
  s.markPlace?.bind fun s =>
    let c := s.cursor.skip 1
    let name := c.rest.takeWhile isWord
    let c := c.skip name.length
    let ends := endsWord c.rest || c.rest.head?.any (fun ch => "?:,]\x7d%@`".toList.contains ch)
    if name.isEmpty || !ends then none
    else some { s.emit (token (String.ofList name)) with cursor := c, keyAllowed := false }

/-- The bytes of `%` codes, which make up characters together. -/
def codes? : Nat → List Char → Option (List UInt8)
  | 0, _ => some []
  | fuel + 1, '%' :: a :: b :: rest =>
    (hexNumber? [a, b]).bind fun n => (codes? fuel rest).map (n.toUInt8 :: ·)
  | _ + 1, '%' :: _ => none
  | _ + 1, _ => some []

/-- How many `%` codes a character with this first byte has. -/
def codeWidth? (b : UInt8) : Option Nat :=
  if b < 0x80 then some 1
  else if b &&& 0xE0 == 0xC0 then some 2
  else if b &&& 0xF0 == 0xE0 then some 3
  else if b &&& 0xF8 == 0xF0 then some 4
  else none

/-- A character given by `%` codes. -/
def coded? (text : List Char) : Option (Char × Nat) :=
  (codes? 1 text).bind fun lead =>
    (lead.head?.bind codeWidth?).bind fun width =>
      (codes? width text).bind fun bytes =>
        if bytes.length == width then
          (String.fromUTF8? (ByteArray.mk bytes.toArray)).bind fun t =>
            t.toList.head?.map (·, 3 * width)
        else none

def isUriMark (verbatim : Bool) (ch : Char) : Bool :=
  isWord ch || ";/?:@&=+$.!~*'()".toList.contains ch ||
    (verbatim && (ch == ',' || ch == '[' || ch == ']'))

/-- The characters of a tag, and how many there were to read. -/
def uri? (verbatim : Bool) : Nat → List Char → Option (List Char × Nat)
  | 0, _ => some ([], 0)
  | fuel + 1, ch :: rest =>
    if ch == '%' then
      (coded? (ch :: rest)).bind fun (t, n) =>
        (uri? verbatim fuel ((ch :: rest).drop n)).map fun (ts, m) => (t :: ts, n + m)
    else if isUriMark verbatim ch then
      (uri? verbatim fuel rest).map fun (ts, m) => (ch :: ts, m + 1)
    else some ([], 0)
  | _ + 1, [] => some ([], 0)

/-- The handle at the beginning of a tag: `!`, `!!` or `!name!`, or `!name` when no second mark
follows. -/
def tagHandle (text : List Char) : List Char :=
  let name := (text.drop 1).takeWhile isWord
  '!' :: name ++ (if (text.drop (name.length + 1)).head? == some '!' then ['!'] else [])

/-- The handle and the suffix of a tag, and its length. -/
def tagParts? (text : List Char) : Option (String × String × Nat) :=
  match text with
  | '!' :: '<' :: rest =>
    (uri? true rest.length rest).bind fun (t, n) =>
      if t.isEmpty || (rest.drop n).head? != some '>' then none
      else some ("", String.ofList t, n + 3)
  | _ =>
    let h := tagHandle text
    let rest := text.drop h.length
    (uri? false rest.length rest).bind fun (t, n) =>
      if 2 ≤ h.length && h.getLast? == some '!' then
        if t.isEmpty then none else some (String.ofList h, String.ofList t, h.length + n)
      else
        let suffix := h.drop 1 ++ t
        if suffix.isEmpty then some ("", "!", h.length + n)
        else some ("!", String.ofList suffix, h.length + n)

def tag? (s : Scan) : Option Scan :=
  s.markPlace?.bind fun s =>
    (tagParts? s.cursor.rest).bind fun (h, t, n) =>
      let c := s.cursor.skip n
      if endsWord c.rest || (s.inFlow && c.rest.head? == some ',') then
        some { s.emit (.tag h t) with cursor := c, keyAllowed := false }
      else none

/-! ## Directives -/

/-- A number of at most nine digits. -/
def number? (text : List Char) : Option (Nat × Nat) :=
  let ds := text.takeWhile Char.isDigit
  if ds.isEmpty || 9 < ds.length then none
  else some (ds.foldl (fun n d => n * 10 + (d.toNat - 48)) 0, ds.length)

def versionDirective? (c : Cursor) : Option (Token × Cursor) :=
  let c := c.skipWhile isSpace
  (number? c.rest).bind fun (major, n) =>
    let c := c.skip n
    if c.rest.head? == some '.' then
      let c := c.skip 1
      (number? c.rest).map fun (minor, n) => (.version major minor, c.skip n)
    else none

def handleDirective? (c : Cursor) : Option (Token × Cursor) :=
  let c := c.skipWhile isSpace
  if c.rest.head? != some '!' then none
  else
    let h := tagHandle c.rest
    let c := c.skip h.length
    if !(h == ['!'] || h.getLast? == some '!') || !(c.rest.head?.any isSpace) then none
    else
      let c := c.skipWhile isSpace
      (uri? true c.rest.length c.rest).bind fun (t, n) =>
        let c := c.skip n
        if t.isEmpty || !endsWord c.rest then none
        else some (.handle (String.ofList h) (String.ofList t), c)

def directive? (s : Scan) : Option Scan :=
  (s.closeBlocks (-1)).dropPlace?.bind fun s =>
    let c := s.cursor.skip 1
    let name := c.rest.takeWhile isWord
    let c := c.skip name.length
    if name.isEmpty || !endsWord c.rest then none
    else
      let read :=
        if name == "YAML".toList then versionDirective? c
        else if name == "TAG".toList then handleDirective? c
        else none
      read.bind fun (t, c) =>
        let c := (c.skipWhile isSpace).skipComment
        if c.atBreak || c.atEnd then
          some { s.emit t with cursor := c.breakLine.2, keyAllowed := false }
        else none

/-! ## Scalars -/

def quoted? (s : Scan) (single : Bool) : Option Scan :=
  s.markPlace?.bind fun s =>
    let c := s.cursor.skip 1
    (quotedFrom? single (c.rest.length + 1) [] c).map fun (text, c) =>
      let style := if single then Style.singleQuoted else Style.doubleQuoted
      { s.emit (.scalar style (String.ofList text)) with cursor := c, keyAllowed := false }

def block? (s : Scan) (folded : Bool) : Option Scan :=
  s.dropPlace?.bind fun s =>
    (blockScalar? folded s.indent (s.cursor.skip 1)).map fun (text, c) =>
      let style := if folded then Style.folded else Style.literal
      { s.emit (.scalar style (String.ofList text)) with cursor := c, keyAllowed := true }

def plain? (s : Scan) : Option Scan :=
  s.markPlace?.bind fun s =>
    let c := s.cursor
    (plainFrom? s.inFlow (s.indent + 1).toNat (c.rest.length + 1) [] ⟨[], []⟩ c).map
      fun (text, later, c) =>
        { s.emit (.scalar .plain (String.ofList text)) with cursor := c, keyAllowed := later }

/-- A character that begins no plain scalar, or only in some places. -/
def isIndicator (ch : Char) : Bool :=
  "-?:,[]\x7b\x7d#&*!|>'\"%@`".toList.contains ch

def startsPlain (s : Scan) (ch : Char) (rest : List Char) : Bool :=
  !(isGap ch || isIndicator ch) ||
    (ch == '-' && !rest.head?.any isSpace) ||
    (!s.inFlow && (ch == '?' || ch == ':') && !endsWord rest)

/-! ## The text as a whole -/

/-- Reads the token that begins with the given character. -/
def token? (s : Scan) (ch : Char) (rest : List Char) : Option Scan :=
  if s.cursor.column == 0 && ch == '%' then s.directive?
  else if s.cursor.atMarker then s.marker? (if ch == '-' then .documentStart else .documentEnd)
  else
    let plain := fun (_ : Unit) => if s.startsPlain ch rest then s.plain? else none
    match ch with
    | '[' => s.openFlow? .flowSequenceStart
    | '\x7b' => s.openFlow? .flowMappingStart
    | ']' => s.closeFlow? .flowSequenceEnd
    | '\x7d' => s.closeFlow? .flowMappingEnd
    | ',' => s.comma?
    | '-' => if endsWord rest then s.entry? else plain ()
    | '?' => if s.inFlow || endsWord rest then s.key? else plain ()
    | ':' => if s.inFlow || endsWord rest then s.value? else plain ()
    | '*' => s.reference? .alias
    | '&' => s.reference? .anchor
    | '!' => s.tag?
    | '|' => if s.inFlow then none else s.block? false
    | '>' => if s.inFlow then none else s.block? true
    | '\'' => s.quoted? true
    | '"' => s.quoted? false
    | _ => plain ()

/-- Reads all tokens. Every one takes at least one character. -/
def all? : Nat → Scan → Option (List Token)
  | 0, _ => none
  | fuel + 1, s =>
    (s.skipBlanks (s.cursor.rest.length + 1)).dropStale?.bind fun s =>
      let s := s.closeBlocks s.cursor.column
      match s.cursor.rest with
      | [] => (s.closeBlocks (-1)).dropPlace?.map (·.tokens.reverse)
      | ch :: rest => (s.token? ch rest).bind (all? fuel)

end Scan

/-- The tokens of a text, or none if it is malformed. -/
def tokens? (text : String) : Option (List Token) :=
  let cs := text.toList
  if cs.all isAllowed then Scan.all? (cs.length + 1) (Scan.start cs) else none

end Outfitter.Yaml
