import Mathlib.Data.Rat.Defs
import Mathlib.Tactic.NormNum

/-!
# JSON values

`JsonValue` of `simple_json.h` with its accessors, and what the Stratum client
reads out of a message: the request id and the verdict on a share.

Strings are byte strings. A number is the rational value of its `double`. The
typed accessors throw on a value of another type, which is `none` here.
-/

set_option autoImplicit false

namespace PropMiner.Stratum

/-- A `std::string`. -/
abbrev Bytes := List UInt8

/-- The bytes of an ASCII literal. -/
def bytes (s : String) : Bytes := s.toList.map fun c => UInt8.ofNat c.toNat

inductive JsonValue
  | null
  | bool (v : Bool)
  | number (v : ℚ)
  | string (v : Bytes)
  | array (vs : List JsonValue)
  | object (fields : List (Bytes × JsonValue))

namespace JsonValue

def isNull : JsonValue → Bool
  | null => true
  | _ => false

def isArray : JsonValue → Bool
  | array _ => true
  | _ => false

def toBool : JsonValue → Option Bool
  | bool v => some v
  | _ => none

def toString : JsonValue → Option Bytes
  | string v => some v
  | _ => none

/-- The value of a `static_cast<int64_t>` from `double`: truncation, and the
smallest integer where the result does not fit. -/
def truncate (x : ℚ) : ℤ :=
  let n := x.num.tdiv x.den
  if -2 ^ 63 ≤ n ∧ n < 2 ^ 63 then n else -2 ^ 63

def toInt : JsonValue → Option ℤ
  | number v => some (truncate v)
  | _ => none

/-- `operator[]` by key: the first field of that name. -/
def get (j : JsonValue) (key : Bytes) : JsonValue :=
  match j with
  | object fields => ((fields.find? fun f => f.1 == key).map Prod.snd).getD null
  | _ => null

/-- `operator[]` by index. -/
def at_ (j : JsonValue) (i : ℕ) : JsonValue :=
  match j with
  | array vs => vs.getD i null
  | _ => null

def size : JsonValue → ℕ
  | array vs => vs.length
  | object fields => fields.length
  | _ => 0

end JsonValue

/-! ### Request ids -/

/-- `static_cast<int>`. -/
def toInt32 (n : ℤ) : ℤ := (n + 2 ^ 31) % 2 ^ 32 - 2 ^ 31

/-- `isspace` in the C locale. -/
def isSpace (c : UInt8) : Bool := c == 32 || (9 ≤ c && c ≤ 13)

def isDigit (c : UInt8) : Bool := 48 ≤ c && c ≤ 57

/-- `strtol(s, &end, 10)` on a text, where all of it must be consumed: the value,
clamped to the range of `long`. A text ends at its first null byte. -/
def strtol (s : Bytes) : Option ℤ :=
  let s := (s.takeWhile (· ≠ 0)).dropWhile isSpace
  let (negative, s) := match s with
    | 45 :: s => (true, s)
    | 43 :: s => (false, s)
    | s => (false, s)
  if s ≠ [] ∧ s.all isDigit then
    let n : ℤ := s.foldl (fun n c => 10 * n + (c.toNat - 48 : ℕ)) 0
    some (max (-2 ^ 63) (min (2 ^ 63 - 1) (if negative then -n else n)))
  else none

/-- `parse_request_id`: a pool may send the id as a number or as a string. -/
def parseRequestId : JsonValue → Option ℤ
  | .number v => some (toInt32 (JsonValue.truncate v))
  | .string s => (strtol s).map toInt32
  | _ => none

/-! ### Verdicts -/

/-- The text that `share_result_accepted` reports with a rejection. -/
inductive RejectText
  /-- the serialized `error` member -/
  | error (v : JsonValue)
  | nullResult
  | rejected
  | none

/-- `share_result_accepted`. -/
def shareResultAccepted (parsed : JsonValue) : Bool × RejectText :=
  if !(parsed.get (bytes "error")).isNull then (false, .error (parsed.get (bytes "error")))
  else match parsed.get (bytes "result") with
    | .bool v => (v, .none)
    | .null => (false, .nullResult)
    | .string r =>
        if r = bytes "false" ∨ r = bytes "0" then (false, .rejected) else (true, .none)
    | _ => (true, .none)

end PropMiner.Stratum
