import Readout.Text.Quoted
import Readout.Value.Text

/-!
# Errors

Errors arise while patterns are read, while a graph is wired and sized, while scripts and
configurations are checked, and while a recorded stream is read. Problems with single numbers
are no errors: they travel as invalid values. Each error is a cause; its wording is given by one
function per kind of cause.
-/
namespace Readout

inductive PatternError
  | tooLong (pattern : String)
  | badCharacter (c : Char) (pattern : String)
  | tooManyPatterns
  | tooManyBits (marker : Char) (bits : Nat)
deriving DecidableEq

inductive CombineError
  | tooManyPatterns (count : Nat)
  | wordCount (count limit : Nat)
deriving DecidableEq

inductive BuildError
  | alignment (align : Nat)
  | addressBits (bits : Nat)
  | noPattern
  | noHits
  | sizesDiffer (what : String) (left right : Nat)
  | unitRanges (ranges elements : Nat)
  | notScalar (what : String)
  | conditionSize (condition data : Nat)
  | intervalCount (intervals elements : Nat)
  | fewPoints
  | histogram (bins : Nat) (range : Value)
  | planeHistogram
  | samplerCount (samplers elements : Nat)
  | noExportInput
  | compressionLevel (level : Int)
  | sparseSize
  | emptyExportCondition
  | unknownBit (bit allocated : Nat)
  | eventIndex (event : Nat)
  | moduleIndex (index : Nat)
  | tooManySources
  | tooManyOperators
deriving DecidableEq

inductive ScriptName
  | begin
  | step
deriving DecidableEq

inductive ExpressionError
  | malformed (script : ScriptName) (reason : String)
  | failed (reason : String)
  | notArray
  | notFive (items : Nat)
  | nameNotText
  | emptyName
  | duplicateName (name : String)
  | unitNotText (output : String)
  | size (output : String)
  | mixedLimits (output : String)
  | limitKind (output what : String)
  | limitCount (output what : String) (entries expected : Nat)
  | limitItem (output what : String)
  | shadowsInput (output : String)
deriving DecidableEq

inductive FileError
  | notFound
  | notDirectory
  | isDirectory
  | noSpace
  | nameTooLong
  | nulByte
  | notText
deriving DecidableEq

inductive ConfigError
  | pattern (e : PatternError)
  | combine (e : CombineError)
  | malformedReference (reference : String)
  | nodeName (name : String)
  | duplicateName (name : String)
  | unknownReference (name : String)
  | noOutput (name : String) (output count : Nat)
  | elementRange (index : Nat) (reference : String) (size : Nat)
  | unknownCondition (name : String)
  | notCondition (name : String)
  | bitRange (reference : String) (bits : Nat)
  | unresolved (reference : String)
  | eventIndex (event : Nat)
  | extension (path : String)
  | read (path : String) (e : FileError)
  | write (path : String) (e : FileError)
  | json (reason : String)
  | toml (reason : String)
  | serialize (reason : String)
deriving DecidableEq

/-- The first part of a record that the stream does not hold in full. -/
inductive RecordPart
  | moduleIndex
  | wordCount
  | dataWord
deriving DecidableEq

/-- What was being worked on when an error arose. -/
inductive Context
  | source (event : Nat) (name : String)
  | operator (event : Nat) (name : String)
  | kind (name : String)
  | file (path : String)
  | beginScript
deriving DecidableEq

inductive Error
  | outOfMemory (requested available : Nat)
  | pattern (e : PatternError)
  | combine (e : CombineError)
  | build (e : BuildError)
  | expression (e : ExpressionError)
  | config (e : ConfigError)
  | truncated (part : RecordPart)
  | within (context : Context) (e : Error)
deriving DecidableEq

def PatternError.message : PatternError → String
  | tooLong p => s!"maximum filter size of 32 exceeded: '{p}'"
  | badCharacter c p => s!"invalid character '{c}' in filter '{p}'"
  | tooManyPatterns => "filter count exceeded (max 16)"
  | tooManyBits m n => s!"combined '{m}' bits {n} exceed 64"

def CombineError.message : CombineError → String
  | tooManyPatterns n => s!"at most two filter strings are supported, got {n}"
  | wordCount n limit => s!"word count {n} out of range 1..={limit}"

def BuildError.message : BuildError → String
  | alignment n => s!"alignment {n} is not a power of two"
  | addressBits n => s!"{n} address bits exceed the maximum of 24"
  | noPattern => "extractor filter has no subfilters"
  | noHits => "multi hit extractor needs max_hits > 0"
  | sizesDiffer what a b => s!"{what}: input sizes differ ({a} vs {b})"
  | unitRanges r n => s!"calibration: {r} unit ranges for {n} elements"
  | notScalar what => s!"{what} inputs must be single parameters"
  | conditionSize c d => s!"condition filter: condition size {c} does not match data size {d}"
  | intervalCount i n => s!"interval condition: {i} intervals for {n} elements"
  | fewPoints => "polygon condition needs at least 3 points"
  | histogram bins range => s!"invalid histogram: {bins} bins over range {range.text}"
  | planeHistogram => "invalid 2D histogram binning"
  | samplerCount s n => s!"rate monitor: {s} samplers for {n} elements"
  | noExportInput => "export sink needs at least one input"
  | compressionLevel l => s!"export compression level {l} out of range (-1..=9)"
  | sparseSize => "sparse export inputs must have at most 65535 elements"
  | emptyExportCondition => "export sink condition input is empty"
  | unknownBit b n => s!"condition bit {b} not allocated ({n} bits in event)"
  | eventIndex e => s!"event index {e} out of range (max 12)"
  | moduleIndex m => s!"module index {m} out of range (max 20)"
  | tooManySources => "too many sources"
  | tooManyOperators => "too many operators"

def ScriptName.text : ScriptName → String
  | begin => "begin"
  | step => "step"

def ExpressionError.message : ExpressionError → String
  | malformed s reason => s!"{s.text} script: {reason}"
  | failed reason => reason
  | notArray => "begin script must return an array"
  | notFive n => s!"begin script must return 5 values per output, got {n}"
  | nameNotText => "output name must be a string"
  | emptyName => "output name must not be empty"
  | duplicateName n => s!"duplicate output name '{n}'"
  | unitNotText o => s!"output '{o}': unit must be a string"
  | size o => s!"output '{o}': size must be a positive integer"
  | mixedLimits o =>
    s!"output '{o}': lower and upper limits must both be scalars or both be arrays"
  | limitKind o what => s!"output '{o}': {what} must be a number or an array"
  | limitCount o what n want => s!"output '{o}': {what} has {n} entries, expected {want}"
  | limitItem o what => s!"output '{o}': {what} must contain numbers"
  | shadowsInput o => s!"output '{o}' shadows an input of the same name"

def FileError.message : FileError → String
  | notFound => "No such file or directory (os error 2)"
  | notDirectory => "Not a directory (os error 20)"
  | isDirectory => "Is a directory (os error 21)"
  | noSpace => "No space left on device (os error 28)"
  | nameTooLong => "File name too long (os error 36)"
  | nulByte => "file name contained an unexpected NUL byte"
  | notText => "stream did not contain valid UTF-8"

def ConfigError.message : ConfigError → String
  | pattern e => s!"Filter error: {e.message}"
  | combine e => s!"List filter error: {e.message}"
  | malformedReference r => s!"malformed reference '{r}'"
  | nodeName n => s!"invalid node name '{n}'"
  | duplicateName n => s!"duplicate name '{n}'"
  | unknownReference n => s!"unknown reference '{n}'"
  | noOutput n o count => s!"'{n}' has no output {o} ({count} outputs)"
  | elementRange i r size => s!"index {i} out of range in '{r}' (size {size})"
  | unknownCondition n => s!"unknown condition '{n}'"
  | notCondition n => s!"'{n}' is not a condition"
  | bitRange r bits => s!"condition bit '{r}' out of range ({bits} bits)"
  | unresolved r => s!"unknown or cyclic reference '{r}'"
  | eventIndex e => s!"event index {e} out of range (max 12)"
  | extension p => s!"unsupported config file extension: {Quoted.quote p}"
  | read p e => s!"Failed to read config file {Quoted.quote p}: {e.message}"
  | write p e => s!"Failed to write config file {Quoted.quote p}: {e.message}"
  | json reason => s!"Failed to parse JSON: {reason}"
  | toml reason => s!"Failed to parse TOML: {reason}"
  | serialize reason => s!"Failed to serialize config: {reason}"

def RecordPart.text : RecordPart → String
  | moduleIndex => "module index"
  | wordCount => "word count"
  | dataWord => "data word"

def Context.text : Context → String
  | source e n => s!"event {e} source '{n}'"
  | operator e n => s!"event {e} operator '{n}'"
  | kind n => s!"operator '{n}'"
  | file p => Quoted.quote p
  | beginScript => "begin script"

namespace Error

def message : Error → String
  | outOfMemory r a => s!"Out of memory: requested {r} bytes, {a} bytes available"
  | pattern e => s!"Filter error: {e.message}"
  | combine e => s!"List filter error: {e.message}"
  | build e => s!"Build error: {e.message}"
  | expression e => s!"Expression error: {e.message}"
  | config e => s!"Configuration error: {e.message}"
  | truncated p => s!"IO error: truncated record: missing {p.text}"
  | within c e => s!"{c.text}: {e.message}"

/-- The cause without the contexts around it. -/
def root : Error → Error
  | within _ e => e.root
  | e => e

end Error

/-- Names what was being worked on, should the computation fail. -/
def inContext {m : Type → Type} [Monad m] {α : Type} (c : Context) (x : ExceptT Error m α) :
    ExceptT Error m α :=
  ExceptT.mk do return (← x.run).mapError (Error.within c)

end Readout
