import Workflow.Json

namespace Workflow.Json

def hexDigit (n : Nat) : Char :=
  if n < 10 then Char.ofNat (48 + n) else Char.ofNat (87 + n)

/-- How a character is written between quotes: control characters, quotes and backslashes escaped,
all else as it is. -/
def escape (c : Char) : List Char :=
  if c = '"' then ['\\', '"']
  else if c = '\\' then ['\\', '\\']
  else if c = '\x08' then ['\\', 'b']
  else if c = '\x0c' then ['\\', 'f']
  else if c = '\n' then ['\\', 'n']
  else if c = '\r' then ['\\', 'r']
  else if c = '\t' then ['\\', 't']
  else if c.toNat < 32 then ['\\', 'u', '0', '0', hexDigit (c.toNat / 16), hexDigit (c.toNat % 16)]
  else [c]

/-- A text between quotes, each of its characters as `escape` writes it. -/
def quoteWith (escape : Char → List Char) (s : String) : String :=
  String.ofList ('"' :: (s.toList.flatMap escape ++ ['"']))

def quote (s : String) : String :=
  quoteWith escape s

def enclose (opening closing : String) (parts : List String) : String :=
  opening ++ ",".intercalate parts ++ closing

mutual

def print : Json → String
  | .null => "null"
  | .bool true => "true"
  | .bool false => "false"
  | .number d => d.toText
  | .text s => quote s
  | .array items => enclose "[" "]" (printItems items)
  | .object fields => enclose "\x7b" "\x7d" (printFields fields)

def printItems : List Json → List String
  | [] => []
  | item :: rest => print item :: printItems rest

def printFields : List (String × Json) → List String
  | [] => []
  | (name, value) :: rest => (quote name ++ ":" ++ print value) :: printFields rest

end

end Workflow.Json
