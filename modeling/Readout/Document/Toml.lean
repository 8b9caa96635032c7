import Readout.Document.TomlScalar

/-!
# Reading TOML

A text is a sequence of lines, each an entry or the header of a table. Headers and dotted keys
create the tables on their way; a table is defined only once, either by a header, by dotted keys
or as a value, and a header in double brackets adds a table to a list of them.
-/
namespace Readout.Toml

/-- Nesting and dotted keys end below this depth. -/
def maxDepth : Nat := 80

mutual

/-- What a key stands for while a text is read. -/
inductive Item
  | value (d : Document)
  | table (b : Body)
  | tables (bs : List Body)

/-- The entries of a table. An implicit table was made on the way to another one, a dotted table
by a dotted key. -/
inductive Body
  | mk (implicit dotted : Bool) (entries : List (String × Item))

end

namespace Body

def implicit : Body → Bool
  | mk implicit _ _ => implicit

def dotted : Body → Bool
  | mk _ dotted _ => dotted

def entries : Body → List (String × Item)
  | mk _ _ entries => entries

def new : Body := mk false false []

def find? (b : Body) (key : String) : Option Item := b.entries.lookup key

def replace (key : String) (i : Item) : List (String × Item) → List (String × Item)
  | [] => [(key, i)]
  | (k, old) :: rest => if k = key then (k, i) :: rest else (k, old) :: replace key i rest

/-- Puts an item under a key, in the place of an old one or at the end. -/
def put (b : Body) (key : String) (i : Item) : Body :=
  mk b.implicit b.dotted (replace key i b.entries)

/-- Changes the table that a path leads to, and makes the tables that are missing on the way. -/
def descend (viaDots : Bool) (f : Body → Option Body) : List String → Body → Option Body
  | [], b => f b
  | key :: rest, b =>
    match b.find? key with
    | none => do return b.put key (.table (← descend viaDots f rest (mk true viaDots [])))
    | some (.value _) => none
    | some (.tables bs) => do
      let last ← bs.getLast?
      return b.put key (.tables (bs.dropLast ++ [← descend viaDots f rest last]))
    | some (.table t) =>
      if viaDots && !t.implicit then none
      else do return b.put key (.table (← descend viaDots f rest t))

def insert (b : Body) (path : List String) (key : String) (d : Document) : Option Body :=
  descend true (fun t =>
    if t.dotted = path.isEmpty then none
    else if (t.find? key).isSome then none
    else some (t.put key (.value d))) path b

/-- Opens the table of a header, which is new or was made on the way to another one. -/
def openTable (b : Body) (path : List String) (key : String) : Option Body :=
  descend false (fun t =>
    match t.find? key with
    | none => some (t.put key (.table new))
    | some (.table old) =>
      if old.implicit && !old.dotted then some (t.put key (.table (mk false false old.entries)))
      else none
    | some _ => none) path b

def addTable (b : Body) (path : List String) (key : String) : Option Body :=
  descend false (fun t =>
    match t.find? key with
    | none => some (t.put key (.tables [new]))
    | some (.tables bs) => some (t.put key (.tables (bs ++ [new])))
    | some _ => none) path b

end Body

mutual

def Item.document : Item → Document
  | .value d => d
  | .table b => b.document
  | .tables bs => .list (documents bs)

def documents : List Body → List Document
  | [] => []
  | b :: rest => b.document :: documents rest

def Body.document : Body → Document
  | .mk _ _ entries => .table (entryDocuments entries)

def entryDocuments : List (String × Item) → List (String × Document)
  | [] => []
  | (key, i) :: rest => (key, i.document) :: entryDocuments rest

end

def isKeyPart (c : Char) : Bool := c.isAlphanum || c = '-' || c = '_'

def readSimpleKey : List Char → Option (String × List Char)
  | '"' :: rest => readBasic (rest.length + 1) [] rest
  | '\'' :: rest => readLiteral [] rest
  | cs =>
    let name := cs.takeWhile isKeyPart
    if name.isEmpty then none else some (String.ofList name, cs.dropWhile isKeyPart)

def readKeyParts : Nat → List String → List Char → Option (List String × List Char)
  | 0, _, _ => none
  | fuel + 1, done, cs =>
    match readSimpleKey (skipBlanks cs) with
    | none => none
    | some (part, rest) =>
      match skipBlanks rest with
      | '.' :: rest => readKeyParts fuel (part :: done) rest
      | rest => some (part :: done, rest)

def readKey (cs : List Char) : Option (List String × String × List Char) :=
  match readKeyParts (cs.length + 1) [] cs with
  | some (last :: before, rest) =>
    if before.length + 1 < maxDepth then some (before.reverse, last, rest) else none
  | _ => none

def skipComment : List Char → List Char
  | '#' :: rest => rest.dropWhile isPlain
  | cs => cs

def lineEnd? (cs : List Char) : Option (List Char) :=
  match skipComment (skipBlanks cs) with
  | [] => some []
  | cs => newline? cs

/-- Blanks, comments and line ends between the items of a list. -/
def skipFiller : Nat → List Char → Option (List Char)
  | 0, _ => none
  | fuel + 1, cs =>
    match skipBlanks cs with
    | '#' :: rest =>
      match newline? (rest.dropWhile isPlain) with
      | some rest => skipFiller fuel rest
      | none => none
    | cs =>
      match newline? cs with
      | some rest => skipFiller fuel rest
      | none => some cs

def filler (cs : List Char) : Option (List Char) := skipFiller (cs.length + 1) cs

mutual

/-- Reads a value at a depth of nesting. -/
def readValue : Nat → Nat → List Char → Option (Document × List Char)
  | 0, _, _ => none
  | _, _, [] => none
  | fuel + 1, depth, c :: rest =>
    if c = '"' ∨ c = '\'' then (readText (c :: rest)).map fun (s, rest) => (.text s, rest)
    else if c = '[' then
      if maxDepth ≤ depth + 1 then none else readItems fuel (depth + 1) [] rest
    else if c = '\x7b' then
      if maxDepth ≤ depth + 1 then none
      else
        match skipBlanks rest with
        | '\x7d' :: rest => some (.table [], rest)
        | rest => readEntries fuel (depth + 1) Body.new rest
    else if c = 't' then (word? "true" (c :: rest)).map fun rest => (.bool true, rest)
    else if c = 'f' then (word? "false" (c :: rest)).map fun rest => (.bool false, rest)
    else if c = 'i' ∨ c = 'n' then readSpecial (c :: rest)
    else readNumber (c :: rest)

def readItems : Nat → Nat → List Document → List Char → Option (Document × List Char)
  | 0, _, _, _ => none
  | fuel + 1, depth, done, cs =>
    match filler cs with
    | none => none
    | some (']' :: rest) => some (.list done.reverse, rest)
    | some cs =>
      match readValue fuel depth cs with
      | none => none
      | some (d, rest) =>
        match filler rest with
        | some (',' :: rest) => readItems fuel depth (d :: done) rest
        | some (']' :: rest) => some (.list (d :: done).reverse, rest)
        | _ => none

def readEntries : Nat → Nat → Body → List Char → Option (Document × List Char)
  | 0, _, _, _ => none
  | fuel + 1, depth, b, cs =>
    match readKey cs with
    | some (path, key, '=' :: rest) =>
      match readValue fuel depth (skipBlanks rest) with
      | none => none
      | some (d, rest) =>
        match b.insert path key d with
        | none => none
        | some b =>
          match skipBlanks rest with
          | ',' :: rest => readEntries fuel depth b rest
          | '\x7d' :: rest => some (b.document, rest)
          | _ => none
    | _ => none

end

/-- What was read so far: all tables, and the path of the one that entries go to. -/
structure State where
  root : Body
  current : List String

def State.insert (s : State) (path : List String) (key : String) (d : Document) : Option State :=
  (Body.descend false (fun t => t.insert path key d) s.current s.root).map fun root =>
    { s with root := root }

def readEntry (s : State) (cs : List Char) : Option (State × List Char) :=
  match readKey cs with
  | some (path, key, '=' :: rest) => do
    let (d, rest) ← readValue (2 * rest.length + 2) 0 (skipBlanks rest)
    return (← s.insert path key d, ← lineEnd? rest)
  | _ => none

def readHeader (s : State) : List Char → Option (State × List Char)
  | '[' :: '[' :: rest => do
    let (path, key, rest) ← readKey rest
    let ']' :: ']' :: rest := rest | none
    return (⟨← s.root.addTable path key, path ++ [key]⟩, ← lineEnd? rest)
  | '[' :: rest => do
    let (path, key, rest) ← readKey rest
    let ']' :: rest := rest | none
    return (⟨← s.root.openTable path key, path ++ [key]⟩, ← lineEnd? rest)
  | _ => none

def readLines : Nat → State → List Char → Option State
  | 0, _, _ => none
  | fuel + 1, s, cs =>
    match skipBlanks cs with
    | [] => some s
    | '#' :: rest =>
      match lineEnd? ('#' :: rest) with
      | some rest => readLines fuel s rest
      | none => none
    | '[' :: rest =>
      match readHeader s ('[' :: rest) with
      | some (s, rest) => readLines fuel s rest
      | none => none
    | cs =>
      match newline? cs with
      | some rest => readLines fuel s rest
      | none =>
        match readEntry s cs with
        | some (s, rest) => readLines fuel s rest
        | none => none

def dropByteOrderMark : List Char → List Char
  | c :: rest => if c.toNat = 0xfeff then rest else c :: rest
  | [] => []

def read? (s : String) : Option Document :=
  let cs := dropByteOrderMark s.toList
  (readLines (cs.length + 1) ⟨Body.new, []⟩ cs).map fun s => s.root.document

end Readout.Toml
