import Workflow.Json

namespace Workflow.Json

inductive Token where
  | openObject
  | closeObject
  | openArray
  | closeArray
  | colon
  | comma
  | text (value : String)
  | word (value : Json)

namespace Token

def hexValue? (c : Char) : Option Nat :=
  let n := c.toNat
  if 48 ≤ n ∧ n ≤ 57 then some (n - 48)
  else if 97 ≤ n ∧ n ≤ 102 then some (n - 87)
  else if 65 ≤ n ∧ n ≤ 70 then some (n - 55)
  else none

/-- The unit that four hexadecimal digits spell, and what follows them. -/
def unit? : List Char → Option (Nat × List Char)
  | a :: b :: c :: d :: rest => do
    let a ← hexValue? a
    let b ← hexValue? b
    let c ← hexValue? c
    let d ← hexValue? d
    some (((a * 16 + b) * 16 + c) * 16 + d, rest)
  | _ => none

/-- The character a `\u` escape spells. Characters beyond the first plane take two units, and no
unit of such a pair may stand alone. -/
def escaped? (cs : List Char) : Option (Char × List Char) := do
  let (high, rest) ← unit? cs
  if 0xD800 ≤ high ∧ high ≤ 0xDBFF then
    match rest with
    | '\\' :: 'u' :: more => do
      let (low, rest) ← unit? more
      if 0xDC00 ≤ low ∧ low ≤ 0xDFFF then
        some (Char.ofNat (0x10000 + (high - 0xD800) * 0x400 + (low - 0xDC00)), rest)
      else none
    | _ => none
  else if 0xDC00 ≤ high ∧ high ≤ 0xDFFF then none
  else some (Char.ofNat high, rest)

def simpleEscape? : Char → Option Char
  | '"' => some '"'
  | '\\' => some '\\'
  | '/' => some '/'
  | 'b' => some '\x08'
  | 'f' => some '\x0c'
  | 'n' => some '\n'
  | 'r' => some '\r'
  | 't' => some '\t'
  | _ => none

theorem unit?_length {cs rest : List Char} {n : Nat} (h : unit? cs = some (n, rest)) :
    rest.length < cs.length := by
  unfold unit? at h
  split at h
  · simp only [Option.bind_eq_bind, Option.bind_eq_some_iff, Option.some.injEq, Prod.mk.injEq] at h
    obtain ⟨_, _, _, _, _, _, _, _, _, rfl⟩ := h
    simp only [List.length_cons]
    omega
  · cases h

/-- An escape takes at least one character. -/
theorem escaped?_length {cs rest : List Char} {c : Char} (h : escaped? cs = some (c, rest)) :
    rest.length < cs.length := by
  unfold escaped? at h
  simp only [Option.bind_eq_bind, Option.bind_eq_some_iff] at h
  obtain ⟨⟨high, r⟩, hu, h⟩ := h
  have := unit?_length hu
  dsimp only at h
  split at h
  · split at h
    · rename_i more
      simp only [Option.bind_eq_some_iff] at h
      obtain ⟨⟨low, r'⟩, hl, h⟩ := h
      have := unit?_length hl
      split at h
      · simp only [Option.some.injEq, Prod.mk.injEq] at h
        obtain ⟨_, rfl⟩ := h
        simp only [List.length_cons] at *
        omega
      · cases h
    · cases h
  · split at h
    · cases h
    · simp only [Option.some.injEq, Prod.mk.injEq] at h
      obtain ⟨_, rfl⟩ := h
      assumption

/-- The characters up to the closing quote, and what follows it. -/
def quoted? (cs : List Char) : Option (List Char × List Char) :=
  match cs with
  | [] => none
  | '"' :: rest => some ([], rest)
  | '\\' :: 'u' :: more =>
    match _h : escaped? more with
    | some (c, rest) => (quoted? rest).map fun (cs, rest) => (c :: cs, rest)
    | none => none
  | '\\' :: e :: rest =>
    match simpleEscape? e with
    | some c => (quoted? rest).map fun (cs, rest) => (c :: cs, rest)
    | none => none
  | c :: rest =>
    if c.toNat < 32 ∨ c = '\\' then none
    else (quoted? rest).map fun (cs, rest) => (c :: cs, rest)
termination_by cs.length
decreasing_by
  · have := escaped?_length _h
    simp only [List.length_cons]
    omega
  all_goals simp only [List.length_cons]; omega

/-- So does a quoted text. -/
theorem quoted?_length {cs content rest : List Char} (h : quoted? cs = some (content, rest)) :
    rest.length < cs.length := by
  fun_induction quoted? cs generalizing content rest with
  | case1 => cases h
  | case2 r =>
    simp only [Option.some.injEq, Prod.mk.injEq] at h
    obtain ⟨_, rfl⟩ := h
    simp
  | case3 more c r he ih =>
    simp only [Option.map_eq_some_iff] at h
    obtain ⟨⟨t, r'⟩, hq, h⟩ := h
    simp only [Prod.mk.injEq] at h
    obtain ⟨_, rfl⟩ := h
    have := ih hq
    have := escaped?_length he
    simp only [List.length_cons]
    omega
  | case4 => cases h
  | case5 e r c _ _ ih =>
    simp only [Option.map_eq_some_iff] at h
    obtain ⟨⟨t, r'⟩, hq, h⟩ := h
    simp only [Prod.mk.injEq] at h
    obtain ⟨_, rfl⟩ := h
    have := ih hq
    simp only [List.length_cons]
    omega
  | case6 => cases h
  | case7 => cases h
  | case8 c r _ _ _ _ ih =>
    simp only [Option.map_eq_some_iff] at h
    obtain ⟨⟨t, r'⟩, hq, h⟩ := h
    simp only [Prod.mk.injEq] at h
    obtain ⟨_, rfl⟩ := h
    have := ih hq
    simp only [List.length_cons]
    omega

def digitsValue (ds : List Char) : Nat :=
  ds.foldl (fun n c => 10 * n + (c.toNat - 48)) 0

/-- A number token: no zero before other digits, digits on both sides of a point. -/
def number? (cs : List Char) : Option Decimal :=
  let (negative, cs) := match cs with
    | '-' :: rest => (true, rest)
    | _ => (false, cs)
  let whole := cs.takeWhile Char.isDigit
  let rest := cs.dropWhile Char.isDigit
  let (point, fraction, rest) := match rest with
    | '.' :: more => (true, more.takeWhile Char.isDigit, more.dropWhile Char.isDigit)
    | _ => (false, [], rest)
  if whole = [] ∨ (whole.head? = some '0' ∧ whole.length ≠ 1) ∨
    (point ∧ fraction = []) then none
  else
    let digits := digitsValue (whole ++ fraction)
    match rest with
    | [] => some ⟨negative, digits, -(fraction.length : Int)⟩
    | mark :: more =>
      let (down, ds) := match more with
        | '-' :: ds => (true, ds)
        | '+' :: ds => (false, ds)
        | ds => (false, ds)
      if (mark ≠ 'e' ∧ mark ≠ 'E') ∨ ds = [] ∨ ds.all Char.isDigit = false then none
      else
        let e : Int := digitsValue ds
        some ⟨negative, digits, (if down then -e else e) - fraction.length⟩

/-- The word or number that a run of characters spells. -/
def word? (cs : List Char) : Option Json :=
  match String.ofList cs with
  | "null" => some .null
  | "true" => some (.bool true)
  | "false" => some (.bool false)
  | _ => (number? cs).map .number

def isWordChar (c : Char) : Bool :=
  c.isAlphanum || c == '-' || c == '+' || c == '.'

def isBlank (c : Char) : Bool :=
  c == ' ' || c == '\t' || c == '\n' || c == '\r'

def mark? : Char → Option Token
  | '\x7b' => some .openObject
  | '\x7d' => some .closeObject
  | '[' => some .openArray
  | ']' => some .closeArray
  | ':' => some .colon
  | ',' => some .comma
  | _ => none

/-- The tokens of a text; `none` if some part of it is no token. -/
def scan (cs : List Char) : Option (List Token) :=
  match cs with
  | [] => some []
  | c :: rest =>
    if isBlank c then scan rest
    else if c = '"' then
      match _h : quoted? rest with
      | some (content, rest) => (scan rest).map (.text (String.ofList content) :: ·)
      | none => none
    else match mark? c with
      | some token => (scan rest).map (token :: ·)
      | none =>
        if isWordChar c then
          match word? (c :: rest.takeWhile isWordChar) with
          | some value => (scan (rest.dropWhile isWordChar)).map (.word value :: ·)
          | none => none
        else none
termination_by cs.length
decreasing_by
  · simp
  · have := quoted?_length _h
    simp only [List.length_cons]
    omega
  · simp
  · simp only [List.length_cons]
    have := (List.dropWhile_suffix (l := rest) isWordChar).length_le
    omega

end Token

end Workflow.Json
