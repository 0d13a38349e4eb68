import StylePrep.Encoding.Bytes
import StylePrep.Preprocess.Compilation

/-!
# Line maps as JSON

The file table and the origin of each output line as an indented JSON document.
-/

namespace StylePrep.Export

open Text Encoding

/-- A character inside a JSON string. Quotes, backslashes and control characters
are escaped. -/
def escape (c : Char) : Text :=
  if c = '"' then ['\\', '"']
  else if c = '\\' then ['\\', '\\']
  else if c = '\n' then ['\\', 'n']
  else if c = '\r' then ['\\', 'r']
  else if c = '\t' then ['\\', 't']
  else if c = '\x08' then ['\\', 'b']
  else if c = '\x0c' then ['\\', 'f']
  else if c.toNat < 32 then '\\' :: 'u' :: '0' :: '0' :: hex [c.toNat.toUInt8]
  else [c]

def string (t : Text) : Text := '"' :: t.flatMap escape ++ ['"']

/-- A line break and the indentation of a nesting depth. -/
def lineBreak (depth : Nat) : Text := '\n' :: List.replicate (2 * depth) ' '

/-- Items between brackets, each on a line of its own. -/
def block (opening closing : Char) (depth : Nat) (items : List Text) : Text :=
  if items = [] then [opening, closing]
  else opening :: lineBreak (depth + 1) ++ join (',' :: lineBreak (depth + 1)) items ++
    lineBreak depth ++ [closing]

def member (key : String) (value : Text) : Text := string key.toList ++ ": ".toList ++ value

def object (depth : Nat) (members : List Text) : Text := block '{' '}' depth members

def array (depth : Nat) (items : List Text) : Text := block '[' ']' depth items

def lineMap (c : Compilation) : Text :=
  object 0
    [member "files" (array 1 (c.files.map fun file => string file.path.text)),
      member "lines" (array 1 (c.map.entries.map fun origin =>
        object 2 [member "file" (ofNat origin.file), member "line" (ofNat origin.line)]))]

end StylePrep.Export
