/-
# Seekbase.Lib.Json — JSON text as a pushdown machine that reads one character at a time.

Nothing here mentions a program: this is the text format alone.  `dumps` writes a value the way a
default JSON writer does (`", "` and `": "` separators, short escapes, other control characters as
`\u00xx`, everything else verbatim).  `loads` reads a text with a DETERMINISTIC machine
(`State.step`), so that what a reader makes of a text is a function of the state a prefix leaves
behind.  Round trips, cut texts and glued texts are then all statements about `State.run`.
-/
import Mathlib.Data.List.Basic
import Std.Data.String.ToInt

namespace JsonText

/-- Of the instances that decide a bounded statement on characters, the one that goes through the text. -/
instance (priority := high) decidableInText (p : Char → Prop) [DecidablePred p] (cs : List Char) :
    Decidable (∀ c ∈ cs, p c) := List.decidableBAll p cs

/-! ## Number tokens -/

/-- The integer part of a number after its sign: `0`, or a nonzero digit and more digits. -/
def intPart : List Char → Option (List Char)
  | c :: r =>
    if c = '0' then some r else if c.isDigit then some (r.dropWhile Char.isDigit) else none
  | [] => none

/-- One or more digits, then the rest. -/
def digits : List Char → Option (List Char)
  | c :: r => if c.isDigit then some (r.dropWhile Char.isDigit) else none
  | [] => none

def unsign : List Char → List Char
  | '-' :: r => r
  | r => r

/-- An exponent part and nothing after it. -/
def isExp : List Char → Bool
  | 'e' :: '+' :: r | 'e' :: '-' :: r | 'E' :: '+' :: r | 'E' :: '-' :: r => digits r = some []
  | 'e' :: r | 'E' :: r => digits r = some []
  | _ => false

def isInt (cs : List Char) : Bool := intPart (unsign cs) = some []

/-- A number with a fraction or an exponent, the tokens that are read as a float. -/
def isDec (cs : List Char) : Bool :=
  match intPart (unsign cs) with
  | some ('.' :: r) =>
    match digits r with
    | some [] => true
    | some r => isExp r
    | none => false
  | some r => isExp r
  | none => false

/-- The characters a number token is made of. -/
def isNumChar (c : Char) : Bool := c.isDigit || c == '-' || c == '+' || c == '.' || c == 'e' || c == 'E'

/-- A finite float, kept as the token its `repr` writes. -/
structure Dec where
  text : String
  wf : isDec text.toList = true
  chars : ∀ c ∈ text.toList, isNumChar c = true
  deriving DecidableEq

/-! ## Values and their text -/

inductive Json where
  | null
  | bool (b : Bool)
  | int (i : Int)
  | dec (d : Dec)
  | nan
  | inf
  | negInf
  | str (s : String)
  | arr (xs : List Json)
  | obj (members : List (String × Json))

def hexDigit (n : Nat) : Char := Char.ofNat (if n < 10 then 48 + n else 87 + n)

/-- The two-character escapes: what follows the backslash. -/
def shortEscape (c : Char) : Option Char :=
  if c = '"' then some '"' else if c = '\\' then some '\\' else if c = '\n' then some 'n'
  else if c = '\r' then some 'r' else if c = '\t' then some 't'
  else if c = Char.ofNat 8 then some 'b' else if c = Char.ofNat 12 then some 'f' else none

/-- The escapes of a writer that leaves every character from U+0020 on alone. -/
def escChar (c : Char) : List Char :=
  match shortEscape c with
  | some e => ['\\', e]
  | none =>
    if c.toNat < 32 then ['\\', 'u', '0', '0', hexDigit (c.toNat / 16), hexDigit (c.toNat % 16)]
    else [c]

def hex4 (n : Nat) : List Char :=
  ['\\', 'u', hexDigit (n / 4096 % 16), hexDigit (n / 256 % 16), hexDigit (n / 16 % 16),
    hexDigit (n % 16)]

/-- The escapes of an ASCII-only writer: a character above U+FFFF becomes a surrogate pair. -/
def escAscii (c : Char) : List Char :=
  if c.toNat < 127 then escChar c
  else if c.toNat < 65536 then hex4 c.toNat
  else hex4 (55296 + (c.toNat - 65536) / 1024) ++ hex4 (56320 + (c.toNat - 65536) % 1024)

section Dumps

variable (esc : Char → List Char)

def dumpStr (s : String) : List Char := '"' :: s.toList.flatMap esc ++ ['"']

mutual
/-- The text of a value, over the escapes `esc`. -/
def dumpsWith : Json → List Char
  | .null => ['n', 'u', 'l', 'l']
  | .bool b => if b then ['t', 'r', 'u', 'e'] else ['f', 'a', 'l', 's', 'e']
  | .int i => i.repr.toList
  | .dec d => d.text.toList
  | .nan => ['N', 'a', 'N']
  | .inf => ['I', 'n', 'f', 'i', 'n', 'i', 't', 'y']
  | .negInf => ['-', 'I', 'n', 'f', 'i', 'n', 'i', 't', 'y']
  | .str s => dumpStr esc s
  | .arr xs => '[' :: dumpItems true xs
  | .obj ms => '{' :: dumpMembers true ms
/-- The items of an array and its closing bracket; every item but the first follows `", "`. -/
def dumpItems (fst : Bool) : List Json → List Char
  | [] => [']']
  | x :: xs => (if fst then [] else [',', ' ']) ++ dumpsWith x ++ dumpItems false xs
/-- The members of an object and its closing brace. -/
def dumpMembers (fst : Bool) : List (String × Json) → List Char
  | [] => ['}']
  | (k, v) :: ms =>
    (if fst then [] else [',', ' ']) ++ dumpStr esc k ++ (':' :: ' ' :: dumpsWith v)
      ++ dumpMembers false ms
end

end Dumps

/-- The writer's text, characters from U+0020 on verbatim. -/
def dumps (j : Json) : List Char := dumpsWith escChar j

/-- The ASCII-only writer's text. -/
def dumpsAscii (j : Json) : List Char := dumpsWith escAscii j

/-! ## The reading machine -/

/-- A container whose next value is being read. -/
inductive Frame where
  | arr (xs : List Json)
  | obj (ms : List (String × Json)) (key : String)

/-- What the text of a string is for: a value, or the next key of an object. -/
inductive Slot where
  | value
  | key (ms : List (String × Json))

/-- Inside a string: plain text, or part of an escape (`hi` is a high surrogate already read). -/
inductive Esc where
  | plain
  | slash (hi : Option Nat)
  | hex (hi : Option Nat) (k acc : Nat)
  | high (hi : Nat)

inductive Mode where
  | value
  | first
  | key (ms : List (String × Json)) (fst : Bool)
  | colon (ms : List (String × Json)) (key : String)
  | str (buf : List Char) (esc : Esc) (slot : Slot)
  | num (buf : List Char)
  | lit (rest : List Char) (v : Json)
  | after (v : Json)

structure State where
  stack : List Frame
  mode : Mode

def isWs (c : Char) : Bool := c == ' ' || c == '\t' || c == '\n' || c == '\r'

/-- The value of a number token. -/
def parseNumber (buf : List Char) : Option Json :=
  if isInt buf then (String.ofList buf).toInt?.map .int
  else if h : isDec buf = true ∧ ∀ c ∈ buf, isNumChar c = true then
    some (.dec ⟨String.ofList buf, by simpa using h.1, by simpa using h.2⟩)
  else none

def hexVal (c : Char) : Option Nat :=
  if '0' ≤ c ∧ c ≤ '9' then some (c.toNat - 48)
  else if 'a' ≤ c ∧ c ≤ 'f' then some (c.toNat - 87)
  else if 'A' ≤ c ∧ c ≤ 'F' then some (c.toNat - 55)
  else none

/-- The first character of a value. -/
def startValue (K : List Frame) (c : Char) : Option State :=
  if isWs c then some ⟨K, .value⟩
  else if c = '"' then some ⟨K, .str [] .plain .value⟩
  else if c = '{' then some ⟨K, .key [] true⟩
  else if c = '[' then some ⟨.arr [] :: K, .first⟩
  else if c = 'n' then some ⟨K, .lit ['u', 'l', 'l'] .null⟩
  else if c = 't' then some ⟨K, .lit ['r', 'u', 'e'] (.bool true)⟩
  else if c = 'f' then some ⟨K, .lit ['a', 'l', 's', 'e'] (.bool false)⟩
  else if c = 'N' then some ⟨K, .lit ['a', 'N'] .nan⟩
  else if c = 'I' then some ⟨K, .lit ['n', 'f', 'i', 'n', 'i', 't', 'y'] .inf⟩
  else if c = '-' ∨ c.isDigit then some ⟨K, .num [c]⟩
  else none

/-- The first character after a value. -/
def afterValue (K : List Frame) (v : Json) (c : Char) : Option State :=
  if isWs c then some ⟨K, .after v⟩
  else match K with
    | .arr xs :: K =>
      if c = ',' then some ⟨.arr (xs ++ [v]) :: K, .value⟩
      else if c = ']' then some ⟨K, .after (.arr (xs ++ [v]))⟩
      else none
    | .obj ms k :: K =>
      if c = ',' then some ⟨K, .key (ms ++ [(k, v)]) false⟩
      else if c = '}' then some ⟨K, .after (.obj (ms ++ [(k, v)]))⟩
      else none
    | [] => none

/-- The closing quote of a string. -/
def closeStr (buf : List Char) : Slot → Mode
  | .value => .after (.str (String.ofList buf))
  | .key ms => .colon ms (String.ofList buf)

/-- A `\uXXXX` escape whose four digits have been read.  A lone surrogate is no `Char`, so it ends
the run; a pair is joined. -/
def closeHex (buf : List Char) (slot : Slot) (hi : Option Nat) (n : Nat) : Option Mode :=
  match hi with
  | some h =>
    if 56320 ≤ n ∧ n < 57344 then
      some (.str (buf ++ [Char.ofNat (65536 + (h - 55296) * 1024 + (n - 56320))]) .plain slot)
    else none
  | none =>
    if 55296 ≤ n ∧ n < 56320 then some (.str buf (.high n) slot)
    else if 56320 ≤ n ∧ n < 57344 then none
    else some (.str (buf ++ [Char.ofNat n]) .plain slot)

/-- The character a two-character escape stands for (`/` may be escaped, though no writer does). -/
def unescape (c : Char) : Option Char :=
  if c = '"' then some '"' else if c = '\\' then some '\\' else if c = '/' then some '/'
  else if c = 'n' then some '\n' else if c = 'r' then some '\r' else if c = 't' then some '\t'
  else if c = 'b' then some (Char.ofNat 8) else if c = 'f' then some (Char.ofNat 12) else none

/-- One character inside a string. -/
def stepStr (buf : List Char) (esc : Esc) (slot : Slot) (c : Char) : Option Mode :=
  match esc with
  | .plain =>
    if c = '"' then some (closeStr buf slot)
    else if c = '\\' then some (.str buf (.slash none) slot)
    else if c.toNat < 32 then none
    else some (.str (buf ++ [c]) .plain slot)
  | .slash hi =>
    if c = 'u' then some (.str buf (.hex hi 0 0) slot)
    else if hi.isSome then none
    else (unescape c).map fun d => .str (buf ++ [d]) .plain slot
  | .hex hi k acc =>
    match hexVal c with
    | none => none
    | some d => if k < 3 then some (.str buf (.hex hi (k + 1) (acc * 16 + d)) slot)
      else closeHex buf slot hi (acc * 16 + d)
  | .high hi => if c = '\\' then some (.str buf (.slash (some hi)) slot) else none

def State.step (s : State) (c : Char) : Option State :=
  match s.mode with
  | .value => startValue s.stack c
  | .first =>
    if isWs c then some s
    else if c = ']' then
      match s.stack with
      | _ :: K => some ⟨K, .after (.arr [])⟩
      | [] => none
    else startValue s.stack c
  | .key ms fst =>
    if isWs c then some s
    else if c = '"' then some ⟨s.stack, .str [] .plain (.key ms)⟩
    else if c = '}' ∧ fst then some ⟨s.stack, .after (.obj [])⟩
    else none
  | .colon ms k =>
    if isWs c then some s
    else if c = ':' then some ⟨.obj ms k :: s.stack, .value⟩
    else none
  | .str buf esc slot => (stepStr buf esc slot c).map (⟨s.stack, ·⟩)
  | .num buf =>
    if isNumChar c then some ⟨s.stack, .num (buf ++ [c])⟩
    else if buf = ['-'] ∧ c = 'I' then
      some ⟨s.stack, .lit ['n', 'f', 'i', 'n', 'i', 't', 'y'] .negInf⟩
    else (parseNumber buf).bind (afterValue s.stack · c)
  | .lit rest v =>
    match rest with
    | r :: rs => if c = r then some ⟨s.stack, if rs = [] then .after v else .lit rs v⟩ else none
    | [] => none
  | .after v => afterValue s.stack v c

def State.run (s : State) : List Char → Option State
  | [] => some s
  | c :: cs => (s.step c).bind (·.run cs)

/-- The value a finished text stands for. -/
def State.finish (s : State) : Option Json :=
  match s.stack, s.mode with
  | [], .after v => some v
  | [], .num buf => parseNumber buf
  | _, _ => none

def start : State := ⟨[], .value⟩

/-- Read a whole text as one JSON value.  A reader that builds dicts and floats would go on from here:
a number that is not an integer keeps its spelling, and an object keeps a name that it has twice. -/
def loads (cs : List Char) : Option Json := (start.run cs).bind State.finish

end JsonText
