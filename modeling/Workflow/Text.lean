namespace Workflow.Text

/-- Space, tab, line feed, vertical tab, form feed and carriage return; no other character counts,
whatever its Unicode class. -/
def isBlank (c : Char) : Bool :=
  c == ' ' || (9 ≤ c.toNat && c.toNat ≤ 13)

def trimChars (cs : List Char) : List Char :=
  ((cs.dropWhile isBlank).reverse.dropWhile isBlank).reverse

def trim (s : String) : String :=
  String.ofList (trimChars s.toList)

/-- ASCII letters in lower case, all else untouched. -/
def lower (s : String) : String :=
  String.ofList (s.toList.map Char.toLower)

/-- The form under which two texts count as equal. -/
def normal (s : String) : String :=
  lower (trim s)

/-- The text before its first NUL. -/
def untilNul (s : String) : String :=
  String.ofList (s.toList.takeWhile (· != '\x00'))

/-- Whether `needle` stands somewhere in the characters. -/
def occurs (needle : List Char) : List Char → Bool
  | [] => needle.isEmpty
  | c :: rest => needle.isPrefixOf (c :: rest) || occurs needle rest

def contains (hay needle : String) : Bool :=
  occurs needle.toList hay.toList

/-- What stands before the first `sep`, and what follows it if there is one. -/
def cut (sep : Char) (s : String) : String × Option String :=
  match s.toList.dropWhile (· != sep) with
  | [] => (s, none)
  | _ :: rest => (String.ofList (s.toList.takeWhile (· != sep)), some (String.ofList rest))

def splitChars (sep : Char) : List Char → List (List Char)
  | [] => [[]]
  | c :: rest =>
    if c = sep then [] :: splitChars sep rest
    else match splitChars sep rest with
      | [] => [[c]]
      | piece :: pieces => (c :: piece) :: pieces

/-- The pieces between separators: always one more than there are separators. -/
def split (sep : Char) (s : String) : List String :=
  (splitChars sep s.toList).map String.ofList

theorem splitChars_ne_nil (sep : Char) (cs : List Char) : splitChars sep cs ≠ [] := by
  cases cs with
  | nil => simp [splitChars]
  | cons c rest =>
    unfold splitChars
    split
    · simp
    · split <;> simp

end Workflow.Text
