/-! # Glob patterns

A pattern is a list of items that stand for runs of bytes. Matching hands the rest of the
text to a continuation, so that a sequence accepts a text iff the text splits into one
piece per item.
-/

namespace Outfitter.Glob

inductive Item where
  /-- A character that stands for itself. -/
  | literal (c : Char)
  /-- One byte other than a slash: `?`. -/
  | any
  /-- Any bytes other than slashes: `*`. -/
  | star
  /-- Any directories before the rest: a leading double star segment. -/
  | leading
  /-- All that lies below: a final double star segment. -/
  | trailing
  /-- Any directories between: a double star segment with neighbours. -/
  | between
  /-- One byte of a class, or outside it. -/
  | cls (negated : Bool) (ranges : List (Char × Char))
  | choice (branches : List (List Item))
  deriving Repr, Inhabited

abbrev Bytes := List UInt8

/-- The UTF-8 bytes of a text. -/
def bytes (cs : List Char) : Bytes := cs.flatMap String.utf8EncodeChar

def slash : UInt8 := 47

/-- The bytes a class range names: its ends are written as bytes, and the byte before the
dash and the byte after it span all between them. -/
def inRange (r : Char × Char) (b : UInt8) : Bool :=
  if r.1 = r.2 then (String.utf8EncodeChar r.1).contains b
  else
    let lo := String.utf8EncodeChar r.1
    let hi := String.utf8EncodeChar r.2
    lo.dropLast.contains b || hi.tail.contains b ||
      (match lo.getLast?, hi.head? with
       | some x, some y => x ≤ b && b ≤ y
       | _, _ => false)

def inClass (negated : Bool) (ranges : List (Char × Char)) (b : UInt8) : Bool :=
  negated != ranges.any (inRange · b)

/-- One byte of `p`, then a rest that `k` accepts. -/
def one (p : UInt8 → Bool) (k : Bytes → Bool) : Bytes → Bool
  | [] => false
  | b :: s => p b && k s

/-- Any number of bytes of `p`, then a rest that `k` accepts. -/
def run (p : UInt8 → Bool) (k : Bytes → Bool) : Bytes → Bool
  | [] => k []
  | b :: s => k (b :: s) || (p b && run p k s)

/-- The bytes of `w`, then a rest that `k` accepts. -/
def exactly (w : Bytes) (k : Bytes → Bool) (s : Bytes) : Bool :=
  match w with
  | [] => k s
  | b :: w => one (· == b) (exactly w k) s

mutual

/-- An item that can only stand for nothing: a choice among such sequences. -/
def Item.isVoid : Item → Bool
  | .choice branches => allVoid branches
  | _ => false

def isVoid : List Item → Bool
  | [] => true
  | i :: rest => i.isVoid && isVoid rest

def allVoid : List (List Item) → Bool
  | [] => true
  | b :: rest => isVoid b && allVoid rest

end

mutual

def Item.accepts (k : Bytes → Bool) (s : Bytes) : Item → Bool
  | .literal c => exactly (String.utf8EncodeChar c) k s
  | .any => one (· != slash) k s
  | .star => run (· != slash) k s
  | .leading => k s || one (· == slash) k s || run (fun _ => true) (one (· == slash) k) s
  | .trailing => one (· == slash) (run (fun _ => true) k) s
  | .between =>
    one (· == slash) k s || one (· == slash) (run (fun _ => true) (one (· == slash) k)) s
  | .cls negated ranges => one (inClass negated ranges) k s
  | .choice branches => if allVoid branches then k s else anyAccepts k s branches

def accepts (k : Bytes → Bool) (s : Bytes) : List Item → Bool
  | [] => k s
  | i :: rest => i.accepts (fun s => accepts k s rest) s

/-- Some branch that can stand for something accepts. -/
def anyAccepts (k : Bytes → Bool) (s : Bytes) : List (List Item) → Bool
  | [] => false
  | b :: rest => (!isVoid b && accepts k s b) || anyAccepts k s rest

end

/-- A pattern of one leading double star accepts every text. -/
def isMatch (items : List Item) (text : String) : Bool :=
  match items with
  | [.leading] => true
  | _ => accepts List.isEmpty (bytes text.toList) items

end Outfitter.Glob
