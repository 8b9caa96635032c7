import Readout.Config.Decode
import Readout.Config.Encode
import Readout.Document.Json
import Readout.Document.JsonText
import Readout.Document.Toml
import Readout.Document.TomlText
import Readout.Volume.Basic

/-!
# Configuration files

The extension of a file tells the language it is written in. A file that cannot be read or written
is reported with its path; what is wrong inside of it is reported in the context of the path.
-/
namespace Readout.Config

open Document (Language)

def ofJson (text : String) : Except Error Config :=
  match (Json.read? text).bind (ofDocument .json) with
  | some c => return c
  | none => throw (.config (.json "not a configuration"))

def ofToml (text : String) : Except Error Config :=
  match (Toml.read? text).bind (ofDocument .toml) with
  | some c => return c
  | none => throw (.config (.toml "not a configuration"))

def languageOf (path : String) : Except Error Language :=
  match Path.extension? path with
  | some "toml" => return .toml
  | some "json" => return .json
  | _ => throw (.config (.extension path))

def parse (language : Language) (text : String) : Except Error Config :=
  match language with
  | .json => ofJson text
  | .toml => ofToml text

def textOf (bytes : List UInt8) : Except FileError String :=
  match String.fromUTF8? bytes.toByteArray with
  | some s => return s
  | none => throw .notText

def load (v : Volume) (path : String) : Except Error Config := do
  let language ← languageOf path
  let text ← ((v.contents path).bind textOf).mapError fun e => Error.config (.read path e)
  (parse language text).mapError (Error.within (.file path))

/-- The text of a configuration. Seeds and sizes that TOML has no form for are refused. -/
def print (language : Language) (c : Config) : Except Error String :=
  match language with
  | .json => return Json.text c.document
  | .toml =>
    match Toml.text? c.document with
    | some s => return s
    | none => throw (.config (.serialize "number out of range"))

def save (c : Config) (v : Volume) (path : String) : Except Error Unit × Volume :=
  match languageOf path >>= fun l => print l c with
  | .error e => (.error e, v)
  | .ok text =>
    match v.writeFile path text.toUTF8.toList with
    | (.ok _, v) => (.ok (), v)
    | (.error e, v) => (.error (.config (.write path e)), v)

end Readout.Config
