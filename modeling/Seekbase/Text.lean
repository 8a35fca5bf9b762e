/-
# Seekbase.Text — the texts of a pipeline: its cut into segments, leading tokens, arguments.

Every scanner is a recursion on the characters with the state the source's loop carries (the open
quote, the text so far), and one that raises returns the reason.

* `splitPipeline`     — the cut at top-level `|`, outside quotes and never at `||`;
* `lead`              — the leading token of a segment, and the text after it;
* `countPlaceholders` — the `?` outside quotes;
* `splitArgs`         — `shlex.split` in POSIX mode;
* `parseTokens`, `pyInt` — positional tokens and options, and the integers among them.
-/
import Seekbase.Struct

namespace Seekbase

/-! ## Segments -/

def isQuote (c : Char) : Bool := c == '\'' || c == '"'

/-- The pieces between top-level pipes: `quote` is the literal the text is in, `buf` the piece so far. -/
def cutPipes : Option Char → List Char → List Char → List (List Char)
  | _, buf, [] => [buf]
  | some q, buf, c :: rest =>
    if c = q then
      -- a doubled quote does not end the literal
      match rest with
      | d :: rest' =>
        if d = q then cutPipes (some q) (buf ++ [c, d]) rest'
        else cutPipes none (buf ++ [c]) (d :: rest')
      | [] => [buf ++ [c]]
    else cutPipes (some q) (buf ++ [c]) rest
  | none, buf, c :: rest =>
    if isQuote c then cutPipes (some c) (buf ++ [c]) rest
    else if c = '|' then
      match rest with
      | '|' :: rest' => cutPipes none (buf ++ ['|', '|']) rest'
      | rest' => buf :: cutPipes none [] rest'
    else cutPipes none (buf ++ [c]) rest

theorem cutPipes_ne_nil (q : Option Char) (buf cs : List Char) : cutPipes q buf cs ≠ [] := by
  fun_induction cutPipes q buf cs <;> simp_all

/-- `split_pipeline`: nothing where a segment is empty. -/
def splitPipeline (text : List Char) : Option (List (List Char)) :=
  let out := (cutPipes none [] text).map strip
  if [] ∈ out then none else some out

/-- `_LEAD`: the identifier a segment starts with, and what follows it. -/
def lead (segment : List Char) : Option (String × List Char) :=
  match segment.dropWhile isSpace with
  | c :: rest =>
    if isIdentStart c then
      some (String.ofList (c :: rest.takeWhile isIdentChar), rest.dropWhile isIdentChar)
    else none
  | [] => none

/-- The `?` outside string literals. -/
def countPlaceholders : Option Char → List Char → Nat
  | _, [] => 0
  | some q, c :: rest =>
    if c = q then
      match rest with
      | d :: rest' =>
        if d = q then countPlaceholders (some q) rest' else countPlaceholders none (d :: rest')
      | [] => 0
    else countPlaceholders (some q) rest
  | none, c :: rest =>
    if isQuote c then countPlaceholders (some c) rest
    else if c = '?' then countPlaceholders none rest + 1
    else countPlaceholders none rest

/-! ## Arguments -/

/-- The state of `shlex` with what it goes back to after an escape. -/
inductive Lexing where
  | space
  | word
  | quoted (q : Char)
  | escaped (back : Option Char)

/-- `shlex.whitespace`. -/
def isArgSpace (c : Char) : Bool := c == ' ' || c == '\t' || c == '\r' || c == '\n'

/-- `shlex.split`: `token` is the text of the current token, `live` whether there is one (a quoted
empty text is a token).  Raises on an open quote and on a trailing backslash. -/
def lexArgs : Lexing → List Char → Bool → List Char → Except String (List String)
  | .quoted _, _, _, [] => .error "No closing quotation"
  | .escaped _, _, _, [] => .error "No escaped character"
  | _, token, live, [] => .ok (if live then [String.ofList token] else [])
  | .space, token, live, c :: rest =>
    if isArgSpace c then lexArgs .space token live rest
    else if c = '\\' then lexArgs (.escaped none) [] true rest
    else if isQuote c then lexArgs (.quoted c) [] true rest
    else lexArgs .word [c] true rest
  | .word, token, live, c :: rest =>
    if isArgSpace c then (lexArgs .space [] false rest).map (String.ofList token :: ·)
    else if c = '\\' then lexArgs (.escaped none) token live rest
    else if isQuote c then lexArgs (.quoted c) token live rest
    else lexArgs .word (token ++ [c]) live rest
  | .quoted q, token, live, c :: rest =>
    if c = q then lexArgs .word token live rest
    -- only double quotes keep the backslash as an escape
    else if c = '\\' ∧ q = '"' then lexArgs (.escaped (some q)) token live rest
    else lexArgs (.quoted q) (token ++ [c]) live rest
  | .escaped none, token, live, c :: rest => lexArgs .word (token ++ [c]) live rest
  | .escaped (some q), token, live, c :: rest =>
    if c = '\\' ∨ c = q then lexArgs (.quoted q) (token ++ [c]) live rest
    else lexArgs (.quoted q) (token ++ ['\\', c]) live rest

def splitArgs (text : List Char) : Except String (List String) := lexArgs .space [] false text

section

variable (token : List Char) (live : Bool) (c : Char) (rest : List Char)

theorem lexArgs_space : lexArgs .space token live (c :: rest)
    = if isArgSpace c then lexArgs .space token live rest
      else if c = '\\' then lexArgs (.escaped none) [] true rest
      else if isQuote c then lexArgs (.quoted c) [] true rest
      else lexArgs .word [c] true rest := rfl

theorem lexArgs_word : lexArgs .word token live (c :: rest)
    = if isArgSpace c then (lexArgs .space [] false rest).map (String.ofList token :: ·)
      else if c = '\\' then lexArgs (.escaped none) token live rest
      else if isQuote c then lexArgs (.quoted c) token live rest
      else lexArgs .word (token ++ [c]) live rest := rfl

theorem lexArgs_quoted (q : Char) : lexArgs (.quoted q) token live (c :: rest)
    = if c = q then lexArgs .word token live rest
      else if c = '\\' ∧ q = '"' then lexArgs (.escaped (some q)) token live rest
      else lexArgs (.quoted q) (token ++ [c]) live rest := rfl

theorem lexArgs_escaped : lexArgs (.escaped none) token live (c :: rest)
    = lexArgs .word (token ++ [c]) live rest := rfl

theorem lexArgs_escaped_quoted (q : Char) : lexArgs (.escaped (some q)) token live (c :: rest)
    = if c = '\\' ∨ c = q then lexArgs (.quoted q) (token ++ [c]) live rest
      else lexArgs (.quoted q) (token ++ ['\\', c]) live rest := rfl

end

/-- `parse_tokens`: the positional tokens and the options, a repeated one bound last; the token that
lacks its value where one does. -/
def parseTokens : List String → Except String (List String × List (String × String))
  | [] => .ok ([], [])
  | t :: rest =>
    if t.toList.take 2 = ['-', '-'] then
      match rest with
      | v :: rest' =>
        (parseTokens rest').map fun r => (r.1, (String.ofList (t.toList.drop 2), v) :: r.2)
      | [] => .error t
    else (parseTokens rest).map fun r => (t :: r.1, r.2)

/-- The digits of an integer, of any script, single underscores allowed between them. -/
def pyDigits (afterDigit : Bool) : List Char → Option (List Char)
  | [] => if afterDigit then some [] else none
  | c :: rest =>
    if isDecimal c then (pyDigits true rest).map (c :: ·)
    else if c = '_' ∧ afterDigit = true then pyDigits false rest
    else none

/-- What `int` strips: the blanks of `strip` but the four separators of ASCII. -/
def isIntSpace (c : Char) : Bool := isSpace c && !(28 ≤ c.toNat && c.toNat < 32)

/-- `int` of a text. -/
def pyInt (s : String) : Option Int :=
  match (s.toList.dropWhile isIntSpace).rdropWhile isIntSpace with
  | '-' :: rest => ((pyDigits false rest).bind intOf).map fun n => -(n : Int)
  | '+' :: rest => ((pyDigits false rest).bind intOf).map Int.ofNat
  | rest => ((pyDigits false rest).bind intOf).map Int.ofNat

example : pyInt "\uff13" = some 3 := by decide +kernel

/-- `str.lower` of an ASCII text; the Kelvin sign is the one other character whose lower case an
identifier can have. -/
def pyLower (s : String) : String :=
  String.ofList (s.toList.map fun c => if c.toNat = 0x212A then 'k' else c.toLower)

end Seekbase
