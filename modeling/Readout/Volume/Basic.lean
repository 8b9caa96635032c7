import Readout.Error
import Readout.Export.Zlib

/-!
# Volumes

A volume is a tree of files as a value: directories, files with their bytes, and the two devices
that swallow or refuse what is written. Opening, writing and reading fail for the reasons for
which they fail on a disk. Everything that works on files is written over the operations of the
class, so it can also be run where each of them succeeds or fails at will, and where a compressor
emits what it likes. The compressor of a volume emits nothing before its stream ends.

A path is a list of names separated by slashes. A dot names the directory itself and two dots its
parent.
-/
namespace Readout

namespace Path

def parts (path : String) : List String := path.splitOn "/"

/-- The last name of a path, unless it names a directory by dots. -/
def fileName? (path : String) : Option String :=
  match (parts path).reverse.filter fun p => p ≠ "" ∧ p ≠ "." with
  | [] => none
  | name :: _ => if name = ".." then none else some name

/-- What follows the last dot of a name. A dot in front hides a file and starts no extension. -/
def extension? (path : String) : Option String := do
  let name ← fileName? path
  match (name.splitOn ".").reverse with
  | [] | [_] => none
  | ext :: before => if before = [""] then none else some ext

end Path

structure FileHandle where
  place : List String
deriving DecidableEq

class Files (V : Type) where
  create : V → String → Except FileError FileHandle × V
  /-- Overwrites or extends a file from a position on. -/
  write : V → FileHandle → Nat → List UInt8 → Except FileError Unit × V
  /-- What a compressor emits when it takes one more piece. -/
  compress : List (List UInt8) → List UInt8 → List UInt8
  /-- What a compressor that took these pieces emits when its stream ends. -/
  compressEnd : List (List UInt8) → List UInt8

inductive Node
  | directory
  | file (bytes : List UInt8)
  | full
  | sink
deriving DecidableEq

structure Volume where
  nodes : List (List String × Node)
  current : List String
deriving DecidableEq

namespace Volume

/-- An empty current directory beside the devices. -/
def fresh : Volume where
  current := ["run", "work"]
  nodes :=
    [([], .directory), (["run"], .directory), (["run", "work"], .directory), (["tmp"], .directory),
      (["dev"], .directory), (["dev", "full"], .full), (["dev", "null"], .sink)]

def find? (v : Volume) (place : List String) : Option Node := v.nodes.lookup place

def put (v : Volume) (place : List String) (n : Node) : Volume :=
  if (v.find? place).isSome then
    { v with nodes := v.nodes.map fun (p, m) => if p = place then (p, n) else (p, m) }
  else { v with nodes := v.nodes ++ [(place, n)] }

/-- Walks down a path, through directories only. The last name may be missing. -/
def walk (v : Volume) : List String → List String → Except FileError (List String)
  | place, [] => return place
  | place, name :: rest =>
    match v.find? place with
    | none => throw .notFound
    | some .directory =>
      if name = "" ∨ name = "." then v.walk place rest
      else if name = ".." then v.walk place.dropLast rest
      else if 255 < name.utf8ByteSize then throw .nameTooLong
      else v.walk (place ++ [name]) rest
    | some _ => throw .notDirectory

def start (v : Volume) (path : String) : List String :=
  if path.startsWith "/" then [] else v.current

def locate (v : Volume) (path : String) : Except FileError (List String) :=
  if path = "" then throw .notFound
  else if path.toList.contains (Char.ofNat 0) then throw .nulByte
  else v.walk (v.start path) (Path.parts path)

def createAt (v : Volume) (place : List String) : Except FileError FileHandle × Volume :=
  match v.find? place with
  | some .directory => (.error .isDirectory, v)
  | some (.file _) | none => (.ok ⟨place⟩, v.put place (.file []))
  | some _ => (.ok ⟨place⟩, v)

/-- A missing name with a slash behind it could only be a directory. -/
def namesDirectory (v : Volume) (path : String) : Bool :=
  path.endsWith "/" &&
    match v.locate (path.dropEndWhile '/').toString with
    | .ok place => (v.find? place).isNone
    | .error _ => false

def create (v : Volume) (path : String) : Except FileError FileHandle × Volume :=
  match v.locate path with
  | .ok place => v.createAt place
  | .error e => (.error (if v.namesDirectory path then .isDirectory else e), v)

/-- Overwrites bytes from a position on; a gap before it is filled with zeros. -/
def overlay (old : List UInt8) (position : Nat) (new : List UInt8) : List UInt8 :=
  old.take position ++ List.replicate (position - old.length) 0 ++ new ++
    old.drop (position + new.length)

def writeAt (v : Volume) (h : FileHandle) (position : Nat) (bytes : List UInt8) :
    Except FileError Unit × Volume :=
  match v.find? h.place with
  | some (.file old) => (.ok (), v.put h.place (.file (overlay old position bytes)))
  | some .sink => (.ok (), v)
  | some .full => (if bytes.isEmpty then .ok () else .error .noSpace, v)
  | some .directory => (.error .isDirectory, v)
  | none => (.error .notFound, v)

instance : Files Volume where
  create := create
  write := writeAt
  compress _ _ := []
  compressEnd pieces := Zlib.encode pieces.flatten

def contents (v : Volume) (path : String) : Except FileError (List UInt8) := do
  match v.find? (← v.locate path) with
  | some (.file bytes) => return bytes
  | some .sink => return []
  | some .full => return []
  | some .directory => throw .isDirectory
  | none => throw .notFound

/-- Makes a directory and those that it lies in, as far as they are missing. -/
def makeDirectories (v : Volume) (place : List String) : Except FileError Volume :=
  (List.range place.length).foldlM (fun v i =>
    let p := place.take (i + 1)
    match v.find? p with
    | none => return v.put p .directory
    | some .directory => return v
    | some _ => throw .notDirectory) v

def next (place : List String) (name : String) : List String :=
  if name = "" ∨ name = "." then place
  else if name = ".." then place.dropLast
  else place ++ [name]

/-- The places that a walk along names passes, the last one in front. -/
def trail (place : List String) (names : List String) : List (List String) :=
  names.foldl (fun places name => next (places.headD place) name :: places) [place]

/-- The place that a path names, taken word by word. -/
def placeOf (v : Volume) (path : String) : List String :=
  (Path.parts path).foldl next (v.start path)

/-- The places that a path passes from its start to the one it names. -/
def placesOn (v : Volume) (path : String) : List (List String) :=
  (trail (v.start path) (Path.parts path)).reverse

/-- Makes sure that a file is there, together with the directories it lies in. -/
def touch (v : Volume) (path : String) : Except FileError Volume := do
  let place := v.placeOf path
  let v ← v.makeDirectories place.dropLast
  match v.find? place with
  | none => return v.put place (.file [])
  | some .directory => throw .isDirectory
  | some _ => return v

def writeFile (v : Volume) (path : String) (bytes : List UInt8) : Except FileError Unit × Volume :=
  match v.create path with
  | (.error e, v) => (.error e, v)
  | (.ok h, v) => v.writeAt h 0 bytes

end Volume

end Readout
