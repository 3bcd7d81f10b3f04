import PropMiner.Semantics.Base64
import PropMiner.Stratum.JsonRoundTrip

/-!
# The submit line

The line that `submit_plain_proof` sends, in both dialects, and what the pool reads in it. The
line is put together from texts; `json_escape` escapes backslashes and quotes only, which is
enough for `JsonValue::parse`. But lines end at newlines, and a newline in a job id (which
`parse_string` decodes from its escape in a notification) or in the name of the worker is sent as
it is and cuts the line in two.

## Main definitions

* `submitLine`, `sendLine`
* `SubmitsRight` — one line is sent, and it says what was submitted

## Main results

* `reads_submitLine` — what is read in the line
* `submitsRight_iff` — it is one line if no newline is in the texts
-/

set_option autoImplicit false

namespace PropMiner.Stratum

open PropMiner.Semantics

/-! ### Writing -/

def jsonEscapeByte (c : UInt8) : Bytes := if c = backslash ∨ c = quote then [backslash, c] else [c]

/-- `json_escape` -/
def jsonEscape (s : Bytes) : Bytes := s.flatMap jsonEscapeByte

/-- The line of `submit_plain_proof`: SRBMiner's object, or the positional form of pearl/v1. -/
def submitLine (useObjectSubmit : Bool) (id : Int32) (user jobId b64 : Bytes) : Bytes :=
  if useObjectSubmit then
    bytes "\x7b\"id\":" ++ intText id.toInt ++
      bytes ",\"method\":\"mining.submit\",\"params\":\x7b" ++
      bytes "\"job_id\":\"" ++ jsonEscape jobId ++ bytes "\"," ++
      bytes "\"plain_proof\":\"" ++ b64 ++ bytes "\"\x7d\x7d"
  else
    bytes "\x7b\"id\":" ++ intText id.toInt ++
      bytes ",\"method\":\"mining.submit\",\"params\":[\"" ++
      jsonEscape user ++ bytes "\",\"" ++ jsonEscape jobId ++ bytes "\",\"" ++
      b64 ++ bytes "\"]\x7d"

/-- What `send_line` sends. -/
def sendLine (line : Bytes) : Bytes :=
  if line.getLast? ≠ some 10 then line ++ [10] else line

/-- What `submit_plain_proof` sends. -/
def submitPlainProof (wallet worker : Bytes) (useObjectSubmit : Bool) (id : Int32)
    (jobId proofBytes : Bytes) : Bytes :=
  sendLine (submitLine useObjectSubmit id (wallet ++ bytes "." ++ worker) jobId
    (Base64.encode proofBytes))

/-! ### Reading -/

theorem unescapes_jsonEscapeByte : Unescapes jsonEscapeByte := by
  intro c t
  unfold jsonEscapeByte
  split_ifs with h
  · rcases h with rfl | rfl
    · exact stringBody_escape (by decide) t
    · exact stringBody_escape (by decide) t
  · obtain ⟨hbackslash, hquote⟩ := not_or.mp h
    exact stringBody_plain hquote hbackslash t

/-- A text with nothing to escape. -/
theorem jsonEscape_of_plain {s : Bytes} (h : ∀ c ∈ s, c ≠ backslash ∧ c ≠ quote) :
    jsonEscape s = s := by
  induction s with
  | nil => rfl
  | cons c s ih =>
    obtain ⟨hc, hs⟩ := List.forall_mem_cons.mp h
    rw [jsonEscape, List.flatMap_cons, jsonEscapeByte, if_neg (not_or.mpr hc)]
    exact congrArg (c :: ·) (ih hs)

/-- What the pool reads. -/
def submission (useObjectSubmit : Bool) (id : Int32) (user jobId b64 : Bytes) : JsonValue :=
  .object [(bytes "id", .number id.toInt), (bytes "method", .string (bytes "mining.submit")),
    (bytes "params",
      if useObjectSubmit then
        .object [(bytes "job_id", .string jobId), (bytes "plain_proof", .string b64)]
      else .array [.string user, .string jobId, .string b64])]

/-- A quoted text. -/
def literal (s rest : Bytes) : Bytes := quote :: (jsonEscape s ++ quote :: rest)

theorem reads_jsonEscape (s rest : Bytes) : Reads (literal s rest) (.string s) rest 0 :=
  reads_literal unescapes_jsonEscapeByte s rest

theorem keyOf_literal (k rest : Bytes) : keyOf (literal k (colon :: rest)) = k := by
  rw [keyOf, literal, dropWs_cons rfl, List.tail_cons]
  exact congrArg Prod.fst (stringBody_flatMap unescapes_jsonEscapeByte k (colon :: rest))

theorem afterKey_literal (k rest : Bytes) : afterKey (literal k (colon :: rest)) = rest := by
  have hbody := stringBody_flatMap unescapes_jsonEscapeByte k (colon :: rest)
  rw [afterKey, literal, dropWs_cons rfl, List.tail_cons]
  change dropIf _
    (dropWs (stringBody (k.flatMap jsonEscapeByte ++ quote :: colon :: rest)).2.tail) = _
  rw [hbody, List.tail_cons, dropWs_cons rfl]
  rfl

/-- A member with more after it. -/
theorem readsMembers_more {k t u r : Bytes} {v : JsonValue} {fs : List (Bytes × JsonValue)}
    (hv : Reads t v (comma :: u) 0) (hfs : ReadsMembers u fs r 0) :
    ReadsMembers (literal k (colon :: t)) ((k, v) :: fs) r 0 := by
  have hmore := ReadsMembers.more (t := literal k (colon :: t)) (by rwa [afterKey_literal])
    (dropWs_cons rfl u) (readsMembers_dropWs.mpr hfs)
  rwa [keyOf_literal] at hmore

/-- The last member. -/
theorem readsMembers_end {k t r : Bytes} {v : JsonValue} (hv : Reads t v (closeBrace :: r) 0) :
    ReadsMembers (literal k (colon :: t)) [(k, v)] (closeBrace :: r) 0 :=
  readsMembers_last (keyOf_literal k t) (by rwa [afterKey_literal]) (dropWs_cons rfl r)

theorem reads_object {t r : Bytes} {k : Bytes} {fs : List (Bytes × JsonValue)}
    (h : ReadsMembers (literal k t) fs (closeBrace :: r) 0) :
    Reads (openBrace :: literal k t) (.object fs) r 0 :=
  .object (dropWs_cons rfl _) (by rw [literal, dropWs_cons rfl]; exact nofun)
    (readsMembers_dropWs.mpr h)

theorem reads_array {t r : Bytes} {s : Bytes} {vs : List JsonValue}
    (h : ReadsElements (literal s t) vs (closeBracket :: r) 0) :
    Reads (openBracket :: literal s t) (.array vs) r 0 :=
  .array (dropWs_cons rfl _) (by rw [literal, dropWs_cons rfl]; exact nofun)
    (readsElements_dropWs.mpr h)

/-- The parameters of a submit. -/
def paramsText (useObjectSubmit : Bool) (user jobId b64 rest : Bytes) : Bytes :=
  if useObjectSubmit then
    openBrace :: literal (bytes "job_id") (colon :: literal jobId
      (comma :: literal (bytes "plain_proof") (colon :: literal b64 (closeBrace :: rest))))
  else
    openBracket :: literal user (comma :: literal jobId (comma :: literal b64
      (closeBracket :: rest)))

theorem reads_paramsText (useObjectSubmit : Bool) (user jobId b64 rest : Bytes) :
    Reads (paramsText useObjectSubmit user jobId b64 rest)
      (if useObjectSubmit then
        .object [(bytes "job_id", .string jobId), (bytes "plain_proof", .string b64)]
      else .array [.string user, .string jobId, .string b64]) rest 0 := by
  cases useObjectSubmit with
  | true =>
    apply reads_object
    apply readsMembers_more (reads_jsonEscape jobId _)
    exact readsMembers_end (reads_jsonEscape b64 _)
  | false =>
    apply reads_array
    refine .more (reads_jsonEscape user _) (dropWs_cons rfl _) (readsElements_dropWs.mpr ?_)
    refine .more (reads_jsonEscape jobId _) (dropWs_cons rfl _) (readsElements_dropWs.mpr ?_)
    exact readsElements_last (reads_jsonEscape b64 _) (dropWs_cons rfl rest)

theorem abs_toInt_lt (id : Int32) : |id.toInt| < 10 ^ 15 := by
  have hlow := id.le_toInt
  have hhigh := id.toInt_lt
  rw [abs_lt]
  constructor <;> omega

theorem formatNumber_toInt (id : Int32) : formatNumber (id.toInt : ℚ) = intText id.toInt := by
  have habs : |(id.toInt : ℚ)| < 10 ^ 15 := by exact_mod_cast abs_toInt_lt id
  rw [formatNumber, if_pos ⟨Rat.den_intCast id.toInt, habs⟩, Rat.num_intCast]

theorem reads_intText (id : Int32) {rest : Bytes} (hrest : endsNumber rest) :
    Reads (intText id.toInt ++ rest) (.number id.toInt) rest 0 := by
  have hintegral : (JsonValue.number id.toInt).Integral := ⟨id.toInt, abs_toInt_lt id, rfl⟩
  have hreads := reads_formatNumber hintegral.finite hrest
  have hreread : JsonValue.rereadNumber id.toInt = id.toInt :=
    JsonValue.number.inj (JsonValue.reread_of_integral hintegral)
  rwa [formatNumber_toInt, hreread] at hreads

/-- The line, member by member. -/
theorem submitLine_eq {b64 : Bytes} (hb64 : jsonEscape b64 = b64) (useObjectSubmit : Bool)
    (id : Int32) (user jobId : Bytes) :
    submitLine useObjectSubmit id user jobId b64 =
      openBrace :: literal (bytes "id") (colon :: (intText id.toInt ++ comma ::
        literal (bytes "method") (colon :: literal (bytes "mining.submit") (comma ::
          literal (bytes "params") (colon ::
            paramsText useObjectSubmit user jobId b64 [closeBrace]))))) := by
  cases useObjectSubmit with
  | true =>
    simp only [submitLine, paramsText, literal, if_true, hb64, List.append_assoc]
    rfl
  | false =>
    simp only [submitLine, paramsText, literal, hb64, List.append_assoc]
    rfl

/-- What is read in the line. -/
theorem reads_submitLine {b64 : Bytes} (hb64 : jsonEscape b64 = b64) (useObjectSubmit : Bool)
    (id : Int32) (user jobId : Bytes) :
    Reads (submitLine useObjectSubmit id user jobId b64)
      (submission useObjectSubmit id user jobId b64) [] 0 := by
  rw [submitLine_eq hb64]
  apply reads_object
  -- the id ends at the comma after it
  apply readsMembers_more (reads_intText id ?_)
  · apply readsMembers_more (reads_jsonEscape _ _)
    exact readsMembers_end (reads_paramsText useObjectSubmit user jobId b64 _)
  · rintro c ⟨⟩
    decide

/-! ### Lines -/

theorem newline_mem_jsonEscape {s : Bytes} : 10 ∈ jsonEscape s ↔ 10 ∈ s := by
  rw [jsonEscape, List.mem_flatMap]
  constructor
  · rintro ⟨c, hc, h⟩
    unfold jsonEscapeByte at h
    split_ifs at h
    · rcases List.mem_pair.mp h with h | rfl
      · exact absurd h (by decide)
      · exact hc
    · exact List.mem_singleton.mp h ▸ hc
  · exact fun h => ⟨10, h, List.mem_singleton_self 10⟩

theorem newline_not_mem_intText (n : ℤ) : 10 ∉ intText n := by
  intro h
  rcases List.mem_append.mp h with h | h
  · split_ifs at h
    · exact absurd (List.mem_singleton.mp h) (by decide)
    · cases h
  · exact absurd (isDigit_decimal 10 h) (by decide)

/-- Nothing in the alphabet has to be escaped or ends a line. -/
theorem encode_plain (s : Bytes) :
    jsonEscape (Base64.encode s) = Base64.encode s ∧ 10 ∉ Base64.encode s := by
  have halphabet : ∀ c ∈ Base64.alphabet, c ≠ backslash ∧ c ≠ quote ∧ c ≠ 10 := by
    decide +kernel
  have hplain : ∀ c ∈ Base64.encode s, c ≠ backslash ∧ c ≠ quote ∧ c ≠ 10 := by
    intro c hc
    rcases Base64.mem_encode hc with h | rfl
    · exact halphabet c h
    · decide
  exact ⟨jsonEscape_of_plain fun c hc => ⟨(hplain c hc).1, (hplain c hc).2.1⟩,
    fun h => (hplain 10 h).2.2 rfl⟩

theorem newline_mem_literal {s rest : Bytes} : 10 ∈ literal s rest ↔ 10 ∈ s ∨ 10 ∈ rest := by
  have hquote : (10 : UInt8) ≠ quote := by decide
  simp [literal, newline_mem_jsonEscape, hquote]

theorem newline_mem_paramsText {b64 rest : Bytes} (hb64 : 10 ∉ b64) (hrest : 10 ∉ rest)
    (useObjectSubmit : Bool) (user jobId : Bytes) :
    10 ∈ paramsText useObjectSubmit user jobId b64 rest ↔
      10 ∈ jobId ∨ (useObjectSubmit = false ∧ 10 ∈ user) := by
  have hkeys : (10 : UInt8) ∉ bytes "job_id" ∧ (10 : UInt8) ∉ bytes "plain_proof" := by decide
  have hmarks : (10 : UInt8) ≠ openBrace ∧ (10 : UInt8) ≠ closeBrace ∧ (10 : UInt8) ≠ openBracket ∧
      (10 : UInt8) ≠ closeBracket ∧ (10 : UInt8) ≠ comma ∧ (10 : UInt8) ≠ colon := by decide
  cases useObjectSubmit with
  | true => simp [paramsText, newline_mem_literal, hkeys, hmarks, hb64, hrest]
  | false => simp [paramsText, newline_mem_literal, hmarks, hb64, hrest, or_comm]

/-- A newline in the line comes from one of the texts. -/
theorem newline_mem_submitLine {b64 : Bytes} (hescape : jsonEscape b64 = b64) (hb64 : 10 ∉ b64)
    (useObjectSubmit : Bool) (id : Int32) (user jobId : Bytes) :
    10 ∈ submitLine useObjectSubmit id user jobId b64 ↔
      10 ∈ jobId ∨ (useObjectSubmit = false ∧ 10 ∈ user) := by
  have hid := newline_not_mem_intText id.toInt
  have hkeys : (10 : UInt8) ∉ bytes "id" ∧ (10 : UInt8) ∉ bytes "method" ∧
      (10 : UInt8) ∉ bytes "mining.submit" ∧ (10 : UInt8) ∉ bytes "params" := by decide
  have hmarks : (10 : UInt8) ≠ openBrace ∧ (10 : UInt8) ≠ comma ∧ (10 : UInt8) ≠ colon := by decide
  have hend : (10 : UInt8) ∉ [closeBrace] := by decide
  rw [submitLine_eq hescape, ← newline_mem_paramsText hb64 hend]
  simp only [List.mem_cons, List.mem_append, newline_mem_literal, hid, hkeys, hmarks, false_or]

/-- One line is sent; the pool reads in it the id, the job id, in the positional form the name of
the worker, and digits that stand for the proof. -/
def SubmitsRight (wallet worker : Bytes) (useObjectSubmit : Bool) (id : Int32)
    (jobId proofBytes : Bytes) : Prop :=
  ∃ line, submitPlainProof wallet worker useObjectSubmit id jobId proofBytes = line ++ [10] ∧
    10 ∉ line ∧ ∃ b64 n,
      JsonValue.parse line =
        .ok (submission useObjectSubmit id (wallet ++ bytes "." ++ worker) jobId b64, n) ∧
      Base64.decode b64 = some proofBytes

theorem sendLine_submitLine (useObjectSubmit : Bool) (id : Int32) (user jobId b64 : Bytes) :
    sendLine (submitLine useObjectSubmit id user jobId b64) =
      submitLine useObjectSubmit id user jobId b64 ++ [10] := by
  have hlast : (submitLine useObjectSubmit id user jobId b64).getLast? = some closeBrace := by
    cases useObjectSubmit with
    | true => exact List.getLast?_append.trans rfl
    | false => exact List.getLast?_append.trans rfl
  rw [sendLine, hlast, if_pos (by decide)]

/-- That is so exactly if there is no newline in the texts that are sent. -/
theorem submitsRight_iff (wallet worker : Bytes) (useObjectSubmit : Bool) (id : Int32)
    (jobId proofBytes : Bytes) :
    SubmitsRight wallet worker useObjectSubmit id jobId proofBytes ↔
      10 ∉ jobId ∧ (useObjectSubmit = false → 10 ∉ wallet ∧ 10 ∉ worker) := by
  obtain ⟨hescape, hnewline⟩ := encode_plain proofBytes
  have hline : 10 ∉ submitLine useObjectSubmit id (wallet ++ bytes "." ++ worker) jobId
      (Base64.encode proofBytes) ↔
        10 ∉ jobId ∧ (useObjectSubmit = false → 10 ∉ wallet ∧ 10 ∉ worker) := by
    have hdot : (10 : UInt8) ∉ bytes "." := by decide
    rw [newline_mem_submitLine hescape hnewline, List.mem_append, List.mem_append]
    tauto
  rw [← hline]
  constructor
  · rintro ⟨line, hsent, hno, -⟩
    rw [submitPlainProof, sendLine_submitLine] at hsent
    exact List.append_cancel_right hsent ▸ hno
  · intro hno
    exact ⟨_, sendLine_submitLine _ _ _ _ _, hno, _, _,
      parse_of_reads (reads_submitLine hescape _ _ _ _), Base64.decode_encode proofBytes⟩

/-- A job id of one newline is sent as it is. -/
theorem not_submitsRight_newline :
    ¬ SubmitsRight (bytes "w") (bytes "r") true 3 [10] [] := by
  have htwo : (submitPlainProof (bytes "w") (bytes "r") true 3 [10] []).count 10 = 2 := by
    decide +kernel
  rintro ⟨line, hsent, hno, -⟩
  rw [hsent, List.count_append, List.count_eq_zero_of_not_mem hno] at htwo
  exact absurd htwo (by decide)

end PropMiner.Stratum
