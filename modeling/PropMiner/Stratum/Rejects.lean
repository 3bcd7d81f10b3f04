import PropMiner.Stratum.Client
import PropMiner.Stratum.JsonRoundTrip

/-!
# Rejections

How the reason for a rejection travels. On a rejected share `handle_message` has
`parse_pool_reject` make a sentence of the pool's error and hands the sentence to the
orchestrator, followed by ` raw=` and the error. The orchestrator's share callback takes what
follows the first ` raw=` for the error and parses it again, to count the rejection under its
kind. Over gRPC the outcome of a share is parsed directly.

An error of the Stratum protocol was JSON and is read again. An outcome need not be, and then
`JsonValue::parse` may throw. The sentence ends with the pool's message, where the kind is not
known, and a message with ` raw=` in it is cut at the wrong place.

## Main definitions

* `parsePoolReject`, `shareCallback` — the two ends
* `RejectedAs` — which texts are read as rejections of a kind
* `Separable` — errors that survive the way

## Main results

* `parsePoolReject_iff` — what `parsePoolReject` reads
* `counted_iff` — the kind survives if the error is separable
-/

set_option autoImplicit false

namespace PropMiner.Stratum

open PropMiner.Share (ShareRejectKind)

/-! ### Searching -/

section Search

variable {α : Type*} [DecidableEq α]

/-- What follows the first occurrence of a pattern. -/
def afterFirst (pat : List α) : List α → Option (List α)
  | [] => if pat = [] then some [] else none
  | c :: s => if pat <+: c :: s then some ((c :: s).drop pat.length) else afterFirst pat s

theorem afterFirst_of_start {pat s : List α} (h : pat <+: s) :
    afterFirst pat s = some (s.drop pat.length) := by
  cases s with
  | nil =>
    obtain rfl := List.prefix_nil.mp h
    rfl
  | cons c s => exact if_pos h

theorem afterFirst_cons_of_absent {pat s : List α} {c : α} (h : ¬ pat <+: c :: s) :
    afterFirst pat (c :: s) = afterFirst pat s :=
  if_neg h

omit [DecidableEq α] in
/-- A pattern that cannot overlap itself does not stand across the border. -/
theorem prefix_of_prefix_append {c d : α} {p s t : List α} (hc : c ∉ p)
    (h : c :: p <+: (d :: s) ++ (c :: p ++ t)) : c :: p <+: d :: s := by
  rcases List.prefix_or_prefix_of_prefix h (List.prefix_append _ _) with h' | ⟨x, hx⟩
  · exact h'
  cases x with
  | nil =>
    rw [List.append_nil] at hx
    exact hx ▸ List.prefix_rfl
  | cons e x =>
    -- the rest of the pattern would start as the pattern does
    have hmem : e ∈ p := by
      rw [← (List.cons.inj hx).2]
      exact List.mem_append_right _ List.mem_cons_self
    have hrest : e :: x <+: c :: p ++ t := by
      rw [← hx, List.prefix_append_right_inj, hx] at h
      exact h
    obtain ⟨y, hy⟩ := hrest
    exact absurd ((List.cons.inj hy).1 ▸ hmem) hc

/-- A pattern that ends a text is found there, or before. -/
theorem afterFirst_append {c : α} {p : List α} (hc : c ∉ p) (s t : List α) :
    afterFirst (c :: p) (s ++ (c :: p ++ t)) =
      some (((afterFirst (c :: p) s).map (· ++ (c :: p ++ t))).getD t) := by
  induction s with
  | nil => rw [List.nil_append, afterFirst_of_start (List.prefix_append _ _), List.drop_left]; rfl
  | cons d s ih =>
    by_cases hhere : c :: p <+: d :: s
    · rw [afterFirst_of_start (hhere.trans (List.prefix_append _ _)), afterFirst_of_start hhere,
        List.drop_append_of_le_length hhere.length_le]
      rfl
    · have hacross : ¬ c :: p <+: d :: (s ++ (c :: p ++ t)) :=
        fun h => hhere (prefix_of_prefix_append hc h)
      rw [afterFirst_cons_of_absent hhere, List.cons_append,
        afterFirst_cons_of_absent hacross, ih]

end Search

/-! ### Reading an error -/

/-- `m.find(text) != npos`. -/
def contains (m : Bytes) (text : String) : Bool := (afterFirst (bytes text) m).isSome

def lowerAscii (s : Bytes) : Bytes := s.map Client.toLower

def classifyPoolMessage (msg : Bytes) : ShareRejectKind :=
  let m := lowerAscii msg
  if contains m "duplicate" then .duplicateShare
  else if contains m "job not found" || contains m "unknown job" || contains m "job expired" ||
      contains m "stale" then .jobNotFound
  else if contains m "low difficulty" || contains m "not good enough" ||
      contains m "below target" then .lowDifficulty
  else if contains m "unauthorized" || contains m "not authorized" then .unauthorized
  else if contains m "invalid share" || contains m "invalid proof" || contains m "invalid" then
    .invalidShare
  else .other

/-- An em dash in UTF-8. -/
def dash : Bytes := [0xE2, 0x80, 0x94]

def humanRejectSummary (kind : ShareRejectKind) (poolMessage : Bytes) : Bytes :=
  match kind with
  | .invalidShare => bytes "REJECTED: invalid share " ++ dash ++
      bytes " proof failed pool verification (check GPU stability / overclock, or stale work)"
  | .duplicateShare => bytes "REJECTED: duplicate share " ++ dash ++
      bytes " pool already credited this work"
  | .jobNotFound => bytes "REJECTED: job not found " ++ dash ++
      bytes " share arrived too late (stale job)"
  | .lowDifficulty => bytes "REJECTED: below pool difficulty " ++ dash ++
      bytes " share did not meet target"
  | .unauthorized => bytes "REJECTED: unauthorized " ++ dash ++
      bytes " check wallet.worker and pool password"
  | .other =>
      if poolMessage ≠ [] then bytes "REJECTED: " ++ poolMessage
      else bytes "REJECTED: pool declined share"

structure PoolRejectInfo where
  kind : ShareRejectKind
  poolMessage : Bytes
  rawError : Bytes
  humanSummary : Bytes

/-- The first string of an array that is neither empty nor starts with a digit. -/
def arrayMessage : List JsonValue → Bytes
  | [] => []
  | .string s :: vs => if s ≠ [] ∧ s.head?.any isDigit = false then s else arrayMessage vs
  | _ :: vs => arrayMessage vs

/-- The message of an error. -/
def messageOf : JsonValue → Bytes
  | .array vs => arrayMessage vs
  | .string s => s
  | parsed => ((parsed.get (bytes "message")).toString).getD []

/-- Without a message, the whole error is the message. -/
def poolMessage (parsed : JsonValue) (errJson : Bytes) : Bytes :=
  if messageOf parsed = [] then errJson else messageOf parsed

/-- The end of `parse_pool_reject`. -/
def rejectInfo (kind : ShareRejectKind) (message errJson : Bytes) : PoolRejectInfo :=
  ⟨kind, message, errJson, humanRejectSummary kind message⟩

def parsePoolReject (errJson : Bytes) : Except ParseError PoolRejectInfo :=
  if errJson = [] ∨ errJson = bytes "rejected" then
    .ok (rejectInfo .other (if errJson = [] then bytes "rejected" else errJson) errJson)
  else do
    let (parsed, _) ← JsonValue.parse errJson
    let message := poolMessage parsed errJson
    .ok (rejectInfo (classifyPoolMessage message) message errJson)

/-! ### The way to the counter -/

/-- The error string of `share_result_accepted`. -/
def RejectText.text : RejectText → Bytes
  | .error v => v.serialize
  | .nullResult => bytes "null result"
  | .rejected => bytes "rejected"
  | .none => []

def rawMark : Bytes := bytes " raw="

/-- What `handle_message` passes to the share callback. -/
def callbackMessage (rej : PoolRejectInfo) : Bytes := rej.humanSummary ++ rawMark ++ rej.rawError

/-- The orchestrator's callback on a rejected share: the kind under which it is counted. -/
def shareCallback (msg : Bytes) : Except ParseError ShareRejectKind := do
  let rej ← parsePoolReject ((afterFirst rawMark msg).getD msg)
  .ok rej.kind

/-! ### What is read -/

/-- `JsonValue::parse` does not throw. -/
def Readable (t : Bytes) : Prop := ∃ v r o, Reads t v r o

/-- Which texts are read as rejections, and of which kind. -/
def RejectedAs (t : Bytes) (kind : ShareRejectKind) : Prop :=
  (t = bytes "rejected" ∧ kind = .other) ∨
    ∃ v r o, Reads t v r o ∧ kind = classifyPoolMessage (poolMessage v t)

theorem not_readable_rejected : ¬ Readable (bytes "rejected") := by
  have hthrows : (JsonValue.parse (bytes "rejected")).toOption.isNone = true := by decide +kernel
  rintro ⟨v, r, o, h⟩
  rw [parse_of_reads h] at hthrows
  exact absurd hthrows Bool.false_ne_true

theorem parsePoolReject_of_reads {t r : Bytes} {v : JsonValue} {o : ℕ} (h : Reads t v r o)
    (hne : t ≠ []) :
    parsePoolReject t =
      .ok (rejectInfo (classifyPoolMessage (poolMessage v t)) (poolMessage v t) t) := by
  have hrejected : t ≠ bytes "rejected" := by
    rintro rfl
    exact not_readable_rejected ⟨v, r, o, h⟩
  rw [parsePoolReject, if_neg (not_or.mpr ⟨hne, hrejected⟩), parse_of_reads h]
  rfl

theorem rejectedAs_nil {kind : ShareRejectKind} : RejectedAs [] kind ↔ kind = .other := by
  have hother : classifyPoolMessage (poolMessage .null []) = .other := by decide
  constructor
  · rintro (⟨-, h⟩ | ⟨v, r, o, hreads, rfl⟩)
    · exact h
    · rw [← (Reads.unique (.blank rfl) hreads).1, hother]
  · rintro rfl
    exact .inr ⟨_, _, _, .blank rfl, hother.symm⟩

/-- What `parse_pool_reject` returns. -/
theorem parsePoolReject_iff {t : Bytes} {kind : ShareRejectKind} :
    (∃ rej, parsePoolReject t = .ok rej ∧ rej.kind = kind) ↔ RejectedAs t kind := by
  by_cases hnil : t = []
  · subst hnil
    rw [rejectedAs_nil]
    exact ⟨fun ⟨_, hrej, hkind⟩ => hkind.symm.trans (Except.ok.inj hrej ▸ rfl),
      fun hkind => ⟨_, rfl, hkind.symm⟩⟩
  constructor
  · rintro ⟨rej, hrej, rfl⟩
    by_cases hrejected : t = bytes "rejected"
    · rw [parsePoolReject, if_pos (.inr hrejected)] at hrej
      exact .inl ⟨hrejected, Except.ok.inj hrej ▸ rfl⟩
    · rw [parsePoolReject, if_neg (not_or.mpr ⟨hnil, hrejected⟩)] at hrej
      cases hparse : JsonValue.parse t with
      | error e =>
        rw [hparse] at hrej
        cases hrej
      | ok vn =>
        obtain ⟨r, o, hreads, -⟩ := parse_eq_ok_iff.mp hparse
        rw [hparse] at hrej
        exact .inr ⟨_, r, o, hreads, Except.ok.inj hrej ▸ rfl⟩
  · rintro (⟨rfl, rfl⟩ | ⟨v, r, o, hreads, rfl⟩)
    · exact ⟨_, rfl, rfl⟩
    · exact ⟨_, parsePoolReject_of_reads hreads hnil, rfl⟩

theorem exists_parsePoolReject_iff {t : Bytes} :
    (∃ rej, parsePoolReject t = .ok rej) ↔ t = bytes "rejected" ∨ Readable t := by
  constructor
  · rintro ⟨rej, hrej⟩
    rcases parsePoolReject_iff.mp ⟨rej, hrej, rfl⟩ with ⟨ht, -⟩ | ⟨v, r, o, hreads, -⟩
    · exact .inl ht
    · exact .inr ⟨v, r, o, hreads⟩
  · rintro (rfl | ⟨v, r, o, hreads⟩)
    · exact ⟨_, rfl⟩
    · obtain ⟨rej, hrej, -⟩ := parsePoolReject_iff.mpr (.inr ⟨v, r, o, hreads, rfl⟩)
      exact ⟨rej, hrej⟩

/-! ### What is counted -/

theorem shareCallback_iff {msg : Bytes} {kind : ShareRejectKind} :
    shareCallback msg = .ok kind ↔ RejectedAs ((afterFirst rawMark msg).getD msg) kind := by
  rw [← parsePoolReject_iff, shareCallback]
  cases parsePoolReject ((afterFirst rawMark msg).getD msg) with
  | error e => exact ⟨nofun, nofun⟩
  | ok rej =>
    exact ⟨fun h => ⟨rej, rfl, Except.ok.inj h⟩,
      fun ⟨_, hrej, hkind⟩ => by rw [← hkind, ← Except.ok.inj hrej]; rfl⟩

/-- The callback finds the error, unless the mark stands in the sentence. -/
theorem afterFirst_callbackMessage (rej : PoolRejectInfo) :
    afterFirst rawMark (callbackMessage rej) =
      some (((afterFirst rawMark rej.humanSummary).map (· ++ (rawMark ++ rej.rawError))).getD
        rej.rawError) := by
  have hmark : (32 : UInt8) ∉ bytes "raw=" := by decide
  rw [callbackMessage, List.append_assoc]
  exact afterFirst_append hmark rej.humanSummary rej.rawError

/-- No sentence for a known kind has the mark in it. -/
theorem afterFirst_humanRejectSummary {kind : ShareRejectKind} (hkind : kind ≠ .other)
    (message : Bytes) : afterFirst rawMark (humanRejectSummary kind message) = none := by
  -- only the sentence of `other` has the message in it
  have hsame : humanRejectSummary kind message = humanRejectSummary kind [] := by
    cases kind with
    | other => exact absurd rfl hkind
    | _ => rfl
  rw [hsame]
  cases kind with
  | other => exact absurd rfl hkind
  | _ => decide +kernel

/-- The message that is made of an error. -/
def RejectText.message : RejectText → Bytes
  | .error v => poolMessage v v.serialize
  | .nullResult => bytes "null result"
  | .rejected | .none => bytes "rejected"

/-- The error of a message that was parsed. -/
def RejectText.Finite : RejectText → Prop
  | .error v => v.Finite
  | _ => True

/-- What the callback takes for the error: the mark in a sentence with the pool's message comes
before the one that was put after it. -/
def RejectText.raw (t : RejectText) : Bytes :=
  match classifyPoolMessage t.message, afterFirst rawMark (bytes "REJECTED: " ++ t.message) with
  | .other, some rest => rest ++ (rawMark ++ t.text)
  | _, _ => t.text

/-- An error that survives the way to the counter: it is of a known kind, or the mark does not
stand in its message, or what follows the mark there is not of a known kind either. -/
def Separable (t : RejectText) : Prop :=
  classifyPoolMessage t.message ≠ .other ∨
    ∀ rest, afterFirst rawMark (bytes "REJECTED: " ++ t.message) = some rest →
      RejectedAs (rest ++ (rawMark ++ t.text)) .other

theorem arrayMessage_reread (vs : List JsonValue) :
    arrayMessage (vs.map JsonValue.reread) = arrayMessage vs := by
  induction vs with
  | nil => rfl
  | cons v vs ih =>
    cases v with
    | string s => rw [List.map_cons, JsonValue.reread, arrayMessage, arrayMessage, ih]
    | _ =>
      rw [List.map_cons]
      exact ih

theorem find?_reread (fields : List (Bytes × JsonValue)) (key : Bytes) :
    ((fields.map fun f => (f.1, f.2.reread)).find? fun f => f.1 == key) =
      (fields.find? fun f => f.1 == key).map fun f => (f.1, f.2.reread) := by
  rw [List.find?_map]
  rfl

theorem toString_reread (v : JsonValue) : v.reread.toString = v.toString := by
  cases v <;> rfl

theorem get_reread (v : JsonValue) (key : Bytes) : v.reread.get key = (v.get key).reread := by
  cases v with
  | object fields =>
    rw [JsonValue.reread_object, JsonValue.get, JsonValue.get, find?_reread]
    cases fields.find? fun f => f.1 == key <;> rfl
  | _ => rfl

/-- Reading an error again does not change its message. -/
theorem messageOf_reread (v : JsonValue) : messageOf v.reread = messageOf v := by
  cases v with
  | array vs =>
    rw [JsonValue.reread_array]
    exact arrayMessage_reread vs
  | object fields =>
    have hget := get_reread (.object fields) (bytes "message")
    rw [JsonValue.reread_object] at hget ⊢
    change (((JsonValue.object _).get (bytes "message")).toString).getD [] = _
    rw [hget, toString_reread]
    rfl
  | _ => rfl

theorem poolMessage_ne_nil (v : JsonValue) {t : Bytes} (ht : t ≠ []) : poolMessage v t ≠ [] := by
  unfold poolMessage
  split_ifs with hempty
  · exact ht
  · exact hempty

theorem serialize_ne_nil (v : JsonValue) : v.serialize ≠ [] := by
  obtain ⟨c, t, ts, htokens, -⟩ := exists_tokens_eq_cons v
  rw [← JsonValue.flatten_tokens, htokens]
  exact List.cons_ne_nil _ _

theorem RejectText.message_ne_nil (t : RejectText) : t.message ≠ [] := by
  cases t with
  | error v => exact poolMessage_ne_nil v (serialize_ne_nil v)
  | _ => decide

/-- The errors of the Stratum protocol are read. -/
theorem parsePoolReject_text {t : RejectText} (h : t.Finite) :
    parsePoolReject t.text =
      .ok (rejectInfo (classifyPoolMessage t.message) t.message t.text) := by
  cases t with
  | error v =>
    obtain ⟨rest, hreads⟩ := reads_serialize h
    have hmessage : poolMessage v.reread v.serialize = poolMessage v v.serialize := by
      rw [poolMessage, messageOf_reread]
      rfl
    rw [RejectText.text, parsePoolReject_of_reads hreads (serialize_ne_nil v), hmessage]
    rfl
  | nullResult =>
    have hreads : Reads (bytes "null result") .null (bytes " result") 0 := reads_null rfl
    exact parsePoolReject_of_reads hreads (by decide)
  | rejected | none =>
    have hkind : classifyPoolMessage (bytes "rejected") = .other := by decide +kernel
    rw [RejectText.message, hkind]
    rfl

/-- The error is read, and counted as what it was read. -/
def Counted (err : Bytes) : Prop :=
  ∃ rej, parsePoolReject err = .ok rej ∧ shareCallback (callbackMessage rej) = .ok rej.kind

theorem afterFirst_callbackMessage_text (t : RejectText) :
    afterFirst rawMark (callbackMessage
      (rejectInfo (classifyPoolMessage t.message) t.message t.text)) = some t.raw := by
  rw [afterFirst_callbackMessage, RejectText.raw]
  change some (((afterFirst rawMark (humanRejectSummary _ t.message)).map
    (· ++ (rawMark ++ t.text))).getD t.text) = _
  by_cases hkind : classifyPoolMessage t.message = .other
  · have hhuman : humanRejectSummary .other t.message = bytes "REJECTED: " ++ t.message :=
      if_pos t.message_ne_nil
    rw [hkind, hhuman]
    cases afterFirst rawMark (bytes "REJECTED: " ++ t.message) <;> rfl
  · rw [afterFirst_humanRejectSummary hkind]
    split
    · next h _ => exact absurd h hkind
    · rfl

/-- The callback on a rejection of the Stratum protocol. -/
theorem shareCallback_text_iff {t : RejectText} {kind : ShareRejectKind} :
    shareCallback (callbackMessage
      (rejectInfo (classifyPoolMessage t.message) t.message t.text)) = .ok kind ↔
        RejectedAs t.raw kind := by
  rw [shareCallback_iff, afterFirst_callbackMessage_text, Option.getD_some]

theorem counted_iff {t : RejectText} (h : t.Finite) : Counted t.text ↔ Separable t := by
  have hrej := parsePoolReject_text h
  have hagain : RejectedAs t.text (classifyPoolMessage t.message) :=
    parsePoolReject_iff.mp ⟨_, hrej, rfl⟩
  -- the reader of the callback sees only what follows the mark
  have hcounted : Counted t.text ↔ RejectedAs t.raw (classifyPoolMessage t.message) := by
    rw [← shareCallback_text_iff]
    constructor
    · rintro ⟨rej, hrej', hback⟩
      obtain rfl := Except.ok.inj (hrej.symm.trans hrej')
      exact hback
    · exact fun hback => ⟨_, hrej, hback⟩
  rw [hcounted, Separable, RejectText.raw]
  -- only the summary of an unknown kind repeats the message of the pool
  by_cases hkind : classifyPoolMessage t.message = .other
  · rw [hkind] at hagain ⊢
    cases afterFirst rawMark (bytes "REJECTED: " ++ t.message) with
    | none => exact ⟨fun _ => .inr nofun, fun _ => hagain⟩
    | some rest =>
      exact ⟨fun hrest => .inr fun _ heq => Option.some.inj heq ▸ hrest,
        fun hsep => hsep.resolve_left (not_not.mpr rfl) rest rfl⟩
  · refine ⟨fun _ => .inl hkind, fun _ => ?_⟩
    split
    · next h _ => exact absurd h hkind
    · exact hagain

theorem JsonValue.Finite.get {v : JsonValue} (h : v.Finite) (key : Bytes) :
    (v.get key).Finite := by
  cases v with
  | object fields =>
    rw [JsonValue.get]
    cases hfind : fields.find? fun f => f.1 == key with
    | none => trivial
    | some f => exact JsonValue.allNumbers_object.mp h f (List.mem_of_find?_eq_some hfind)
  | _ => trivial

theorem finite_shareResultAccepted {parsed : JsonValue} (h : parsed.Finite) :
    (shareResultAccepted parsed).2.Finite := by
  unfold shareResultAccepted
  split_ifs
  · exact h.get _
  · split
    · trivial
    · trivial
    · split_ifs <;> trivial
    · trivial

/-- The errors of rejected shares are counted as what they were read, and outcomes are read, if
and only if the error is separable and the outcome readable. -/
theorem counted_and_read_iff {line : Bytes} {parsed : JsonValue} {n : ℕ}
    (h : JsonValue.parse line = .ok (parsed, n)) (outcome : Bytes) :
    (Counted (shareResultAccepted parsed).2.text ∧ ∃ rej, parsePoolReject outcome = .ok rej) ↔
      Separable (shareResultAccepted parsed).2 ∧
        (outcome = bytes "rejected" ∨ Readable outcome) := by
  rw [counted_iff (finite_shareResultAccepted (finite_of_parse h)), exists_parsePoolReject_iff]

/-- A response with this error. -/
def errorResponse (message : String) : JsonValue :=
  .object [(bytes "error", .string (bytes message))]

theorem parse_errorResponse (message : String) :
    ∃ n, JsonValue.parse (errorResponse message).serialize = .ok (errorResponse message, n) :=
  parse_serialize_of_integral ⟨trivial, trivial⟩

theorem counted_duplicateShare :
    (∃ n, JsonValue.parse (errorResponse "duplicate share").serialize =
        .ok (errorResponse "duplicate share", n)) ∧
      Counted (shareResultAccepted (errorResponse "duplicate share")).2.text ∧
        ∃ rej, parsePoolReject (bytes "null") = .ok rej := by
  obtain ⟨n, hparse⟩ := parse_errorResponse "duplicate share"
  refine ⟨⟨n, hparse⟩, (counted_and_read_iff hparse (bytes "null")).mpr ⟨.inl ?_, .inr ?_⟩⟩
  · decide +kernel
  · exact ⟨.null, [], 0, reads_null rfl⟩

/-- A message with the mark in it is cut there, and what follows is not JSON; a plain outcome is
not JSON either. In both cases `std::stod` throws. -/
theorem not_counted :
    ((∃ n, JsonValue.parse (errorResponse "a raw=b").serialize =
        .ok (errorResponse "a raw=b", n)) ∧
      (shareResultAccepted (errorResponse "a raw=b")).1 = false ∧
        ¬ Counted (shareResultAccepted (errorResponse "a raw=b")).2.text) ∧
      (parsePoolReject (bytes "invalid share")).toOption.isNone = true := by
  have hthrows : (do
      let rej ← parsePoolReject (shareResultAccepted (errorResponse "a raw=b")).2.text
      shareCallback (callbackMessage rej)).toOption.isNone = true := by decide +kernel
  refine ⟨⟨parse_errorResponse "a raw=b", by decide +kernel, ?_⟩, by decide +kernel⟩
  rintro ⟨rej, hrej, hback⟩
  rw [hrej] at hthrows
  change (shareCallback (callbackMessage rej)).toOption.isNone = true at hthrows
  rw [hback] at hthrows
  exact absurd hthrows Bool.false_ne_true

end PropMiner.Stratum
