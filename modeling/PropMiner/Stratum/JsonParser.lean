import PropMiner.Semantics.Fallible
import PropMiner.Stratum.JsonNumber

/-!
# Writing and reading JSON

`JsonValue::serialize` and `JsonValue::parse` of `simple_json.cpp`. The parser is a
recursive descent over a text with a position, as in the source; the position can come to
lie beyond the end, since `true`, `false` and `null` are skipped by their length without a
look at more than the first letter. Every access to a byte goes through `load`, which fails
outside of the text, and every loop and call has a bound, which fails when it is used up.

## Main definitions

* `JsonValue.serialize`
* `JsonParser.parseValue`, `JsonValue.parse`
-/

set_option autoImplicit false

namespace PropMiner.Stratum

abbrev quote : UInt8 := 34
abbrev comma : UInt8 := 44
abbrev colon : UInt8 := 58
abbrev openBracket : UInt8 := 91
abbrev backslash : UInt8 := 92
abbrev closeBracket : UInt8 := 93
abbrev openBrace : UInt8 := 123
abbrev closeBrace : UInt8 := 125

/-! ### Writing -/

def escapeByte (c : UInt8) : Bytes :=
  if c = quote then [backslash, quote]
  else if c = backslash then [backslash, backslash]
  else if c = 10 then [backslash, 110]
  else if c = 13 then [backslash, 114]
  else if c = 9 then [backslash, 116]
  else [c]

/-- `escape_json_string` -/
def escapeJsonString (s : Bytes) : Bytes := quote :: s.flatMap escapeByte ++ [quote]

namespace JsonValue

mutual

/-- `serialize` -/
def serialize : JsonValue → Bytes
  | null => bytes "null"
  | bool true => bytes "true"
  | bool false => bytes "false"
  | number v => formatNumber v
  | string v => escapeJsonString v
  | array vs => openBracket :: serializeElements vs ++ [closeBracket]
  | object fields => openBrace :: serializeMembers fields ++ [closeBrace]

/-- The loop over an array: a comma before all but the first. -/
def serializeElements : List JsonValue → Bytes
  | [] => []
  | [v] => v.serialize
  | v :: w :: vs => v.serialize ++ comma :: serializeElements (w :: vs)

/-- The loop over an object. -/
def serializeMembers : List (Bytes × JsonValue) → Bytes
  | [] => []
  | [(k, v)] => escapeJsonString k ++ colon :: v.serialize
  | (k, v) :: f :: fs =>
      escapeJsonString k ++ colon :: v.serialize ++ comma :: serializeMembers (f :: fs)

end

end JsonValue

/-! ### Reading -/

/-- What `skip_ws` skips. -/
def isWs (c : UInt8) : Bool := c == 32 || c == 9 || c == 10 || c == 13

/-- The byte for the letter after a backslash. -/
def unescape (c : UInt8) : UInt8 :=
  if c = 110 then 10
  else if c = 114 then 13
  else if c = 116 then 9
  else if c = 98 then 8
  else if c = 102 then 12
  -- a quote, a backslash, a slash, and everything else
  else c

namespace JsonParser

variable (input : Bytes)

/-- `input_[i]` -/
def load (i : ℕ) : Except ParseError UInt8 :=
  match input[i]? with
  | some c => .ok c
  | none => .error .badRead

/-- `peek`: a null byte stands for the end. -/
def peek (pos : ℕ) : Except ParseError UInt8 :=
  if pos < input.length then load input pos else .ok 0

/-- `next` -/
def next (pos : ℕ) : Except ParseError (UInt8 × ℕ) :=
  if pos < input.length then do
    let c ← load input pos
    return (c, pos + 1)
  else .ok (0, pos)

/-- `while (pos_ < len_ && p(input_[pos_])) pos_++;` -/
def skipWhile (p : UInt8 → Bool) : ℕ → ℕ → Except ParseError ℕ
  | 0, _ => .error .stalled
  | fuel + 1, pos =>
    if pos < input.length then do
      let c ← load input pos
      if p c then skipWhile p fuel (pos + 1) else return pos
    else .ok pos

/-- `skip_ws` -/
def skipWs (pos : ℕ) : Except ParseError ℕ := skipWhile input isWs (input.length + 1) pos

def skipDigits (pos : ℕ) : Except ParseError ℕ := skipWhile input isDigit (input.length + 1) pos

/-- `if (pos_ < len_ && p(peek())) next();` -/
def skipIf (p : UInt8 → Bool) (pos : ℕ) : Except ParseError ℕ :=
  if pos < input.length then do
    let c ← peek input pos
    if p c then do
      let r ← next input pos
      return r.2
    else return pos
  else .ok pos

/-- `for (int i = 0; i < n && pos_ < len_; i++) next();` -/
def skipAtMost : ℕ → ℕ → Except ParseError ℕ
  | 0, pos => .ok pos
  | n + 1, pos =>
    if pos < input.length then do
      let r ← next input pos
      skipAtMost n r.2
    else .ok pos

/-- The loop of `parse_string`. -/
def stringLoop : ℕ → ℕ → Bytes → Except ParseError (Bytes × ℕ)
  | 0, _, _ => .error .stalled
  | fuel + 1, pos, s =>
    if pos < input.length then do
      let c ← peek input pos
      if c = quote then return (s, pos)
      else if c = backslash then
        let r ← next input pos
        let esc ← next input r.2
        if esc.1 = 117 then
          -- the code point of `\u` is skipped
          let pos ← skipAtMost input 4 esc.2
          stringLoop fuel pos (s ++ [63])
        else stringLoop fuel esc.2 (s ++ [unescape esc.1])
      else
        let r ← next input pos
        stringLoop fuel r.2 (s ++ [r.1])
    else .ok (s, pos)

/-- `parse_string` -/
def parseString (pos : ℕ) : Except ParseError (Bytes × ℕ) := do
  let start ← next input pos
  let body ← stringLoop input (input.length + 1) start.2 []
  let stop ← skipIf input (fun _ => true) body.2
  return (body.1, stop)

/-- The decimal point and the digits after it. -/
def skipFrac (pos : ℕ) : Except ParseError ℕ := do
  let c ← peek input pos
  if pos < input.length ∧ c = 46 then skipDigits input (pos + 1) else .ok pos

/-- The exponent. -/
def skipExponent (pos : ℕ) : Except ParseError ℕ := do
  let c ← peek input pos
  if pos < input.length ∧ (c = 101 ∨ c = 69) then do
    let afterSign ← skipIf input (fun c => c == 43 || c == 45) (pos + 1)
    skipDigits input afterSign
  else .ok pos

/-- `parse_number` -/
def parseNumber (pos : ℕ) : Except ParseError (JsonValue × ℕ) := do
  let afterSign ← skipIf input (· == 45) pos
  let afterInt ← skipDigits input afterSign
  let afterFrac ← skipFrac input afterInt
  let stop ← skipExponent input afterFrac
  let v ← stod ((input.drop pos).take (stop - pos))
  return (.number v, stop)

/-- `parse_bool`, which does not look at where the text ends. -/
def parseBool (pos : ℕ) : Except ParseError (JsonValue × ℕ) := do
  let c ← load input pos
  if c = 116 then return (.bool true, pos + 4) else return (.bool false, pos + 5)

/-- `parse_null` -/
def parseNull (pos : ℕ) : Except ParseError (JsonValue × ℕ) := .ok (.null, pos + 4)

mutual

/-- `parse_value` -/
def parseValue : ℕ → ℕ → Except ParseError (JsonValue × ℕ)
  | 0, _ => .error .stalled
  | fuel + 1, pos => do
    let pos ← skipWs input pos
    if input.length ≤ pos then return (.null, pos)
    else
      let c ← peek input pos
      if c = quote then do
        let r ← parseString input pos
        return (.string r.1, r.2)
      else if c = openBrace then parseObject fuel pos
      else if c = openBracket then parseArray fuel pos
      else if c = 116 ∨ c = 102 then parseBool input pos
      else if c = 110 then parseNull pos
      else parseNumber input pos

/-- `parse_array` -/
def parseArray : ℕ → ℕ → Except ParseError (JsonValue × ℕ)
  | 0, _ => .error .stalled
  | fuel + 1, pos => do
    let start ← next input pos
    let pos ← skipWs input start.2
    let c ← peek input pos
    if c = closeBracket then do
      let r ← next input pos
      return (.array [], r.2)
    else
      let r ← parseElements fuel pos
      let stop ← skipIf input (fun _ => true) r.2
      return (.array r.1, stop)

/-- The loop of `parse_array`. -/
def parseElements : ℕ → ℕ → Except ParseError (List JsonValue × ℕ)
  | 0, _ => .error .stalled
  | fuel + 1, pos => do
    let v ← parseValue fuel pos
    let pos ← skipWs input v.2
    let c ← peek input pos
    if c = comma then do
      let r ← next input pos
      let pos ← skipWs input r.2
      let vs ← parseElements fuel pos
      return (v.1 :: vs.1, vs.2)
    else return ([v.1], pos)

/-- `parse_object` -/
def parseObject : ℕ → ℕ → Except ParseError (JsonValue × ℕ)
  | 0, _ => .error .stalled
  | fuel + 1, pos => do
    let start ← next input pos
    let pos ← skipWs input start.2
    let c ← peek input pos
    if c = closeBrace then do
      let r ← next input pos
      return (.object [], r.2)
    else
      let r ← parseMembers fuel pos
      let stop ← skipIf input (fun _ => true) r.2
      return (.object r.1, stop)

/-- The loop of `parse_object`. The key is read as a string whatever it starts with, and
the colon may be missing. -/
def parseMembers : ℕ → ℕ → Except ParseError (List (Bytes × JsonValue) × ℕ)
  | 0, _ => .error .stalled
  | fuel + 1, pos => do
    let pos ← skipWs input pos
    let key ← parseString input pos
    let pos ← skipWs input key.2
    let pos ← skipIf input (· == colon) pos
    let v ← parseValue fuel pos
    let pos ← skipWs input v.2
    let c ← peek input pos
    if c = comma then do
      let r ← next input pos
      let pos ← skipWs input r.2
      let fs ← parseMembers fuel pos
      return ((key.1, v.1) :: fs.1, fs.2)
    else return ([(key.1, v.1)], pos)

end

end JsonParser

/-- `JsonValue::parse`: the value, and how many bytes were consumed. -/
def JsonValue.parse (input : Bytes) : Except ParseError (JsonValue × ℕ) := do
  let pos ← JsonParser.skipWs input 0
  if input.length ≤ pos then return (.null, pos)
  else JsonParser.parseValue input (3 * input.length + 1) pos

end PropMiner.Stratum
