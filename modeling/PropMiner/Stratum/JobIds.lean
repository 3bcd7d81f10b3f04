import Mathlib.Data.List.Find
import PropMiner.Stratum.Messages

/-!
# Job ids of sigmas

A share knows the sigma it was mined for, and `job_id_for_sigma` finds the pool's job id again.
`make_job` enters job ids under the text of the header, in lower case; the search is for the
digits of sigma. The two agree for headers that are written with 152 digits and nothing else.
A marker before the digits, bytes after the first 76, a missing leading zero or characters that
`strtoul` skips are another text for the same sigma, and where a job came with such a text, an
older job id is found, or none and one is made up.

## Main definitions

* `jobIdForSigma` — `job_id_for_sigma`
* `JobIdsFound` — every sigma of a history leads to its latest job id
* `SameUnderDigits` — the histories for which that is so

## Main results

* `handleMessages_notify` — what a history of notifications leaves in the client
* `sameUnderDigits_of_plain` — plain headers are found
* `jobIdsFound_iff` — the histories for which every job id is found
-/

set_option autoImplicit false

namespace PropMiner.Stratum

open PropMiner.Proto (JobAssignment kSigmaHeaderBytes)
open Receive

/-! ### Searching for a sigma -/

/-- `m.find(key)` -/
def lookupKey {ρ : Type*} (m : List (Bytes × ρ)) (key : Bytes) : Option ρ :=
  (m.find? fun p => p.1 == key).map Prod.snd

/-- `job_id_for_sigma`; if none is known, the first digits of sigma are the job id. -/
def jobIdForSigma (s : Client) (sigma : Vector UInt8 kSigmaHeaderBytes) : Bytes :=
  let hex := hexOf sigma.toList
  (lookupKey s.sigmaHexToJobId hex).getD (hex.take 32)

theorem lookupKey_insertKey {ρ : Type*} (m : List (Bytes × ρ)) (k key : Bytes) (v : ρ) :
    lookupKey (Client.insertKey m k v) key = if k = key then some v else lookupKey m key := by
  unfold lookupKey Client.insertKey
  by_cases hk : k = key
  · rw [if_pos hk, List.find?_cons_of_pos (by simpa using hk)]
    rfl
  · rw [if_neg hk, List.find?_cons_of_neg (by simpa using hk), List.find?_filter]
    congr 2
    funext p
    by_cases hp : p.1 = key
    · simp [hp, Ne.symm hk]
    · simp [hp]

/-! ### Histories -/

/-- Messages one after the other, each in its surroundings. -/
def handleMessages : Client → List (Surroundings × Bytes) → Option (Client × List Callback)
  | s, [] => some (s, [])
  | s, (env, line) :: rest =>
    match handleMessage env s line with
    | none => none
    | some (s', cbs) => (handleMessages s' rest).map fun r => (r.1, cbs ++ r.2)

/-- The line is a notification of this job id and header, and the header is long enough. -/
def IsNotify (line : Bytes) (job : Bytes × Bytes) : Prop :=
  ∃ parsed n, JsonValue.parse line = .ok (parsed, n) ∧
    parsed.get (bytes "method") = .string (bytes "mining.notify") ∧
    shortArray (parsed.get (bytes "params")) = false ∧
    notifyJob (parsed.get (bytes "params")) = some job ∧ LongHeader job.2

/-- The first 76 decoded bytes. -/
def headerBytes (header : Bytes) : Bytes := (hexToBytes header).take kSigmaHeaderBytes

/-- The job id of the latest job that meets a test. -/
def latest (p : Bytes × Bytes → Bool) (jobs : List (Bytes × Bytes)) : Option Bytes :=
  (jobs.reverse.find? p).map Prod.fst

theorem toList_sigmaOf {header : Bytes} (h : LongHeader header) :
    (sigmaOf header).toList = headerBytes header := by
  apply List.ext_getElem
  · rw [Vector.length_toList, headerBytes, List.length_take, Nat.min_eq_left h]
  · intro i hi hi'
    have hraw : i < (hexToBytes header).length := by
      rw [headerBytes, List.length_take] at hi'
      omega
    rw [LongHeader] at h
    simp [sigmaOf, headerBytes, h, hraw]

/-- What one notification does. -/
theorem IsNotify.makes {line : Bytes} {job : Bytes × Bytes} (h : IsNotify line job)
    (env : Surroundings) (s : Client) : Makes s job.1 job.2 (handleMessage env s line) := by
  obtain ⟨parsed, n, hparse, hmethod, hshort, hjob, -⟩ := h
  have hnull : ¬ parsed.isNull = true := by
    cases parsed with
    | null => exact absurd hmethod nofun
    | _ => exact Bool.false_ne_true
  rw [handleMessage, hparse]
  dsimp only
  rw [if_neg hnull, hmethod]
  exact handleNotify_makes ((finite_of_parse hparse).get _) hshort hjob

/-- The entries under which job ids are kept. -/
def enter (m : List (Bytes × Bytes)) (job : Bytes × Bytes) : List (Bytes × Bytes) :=
  Client.insertKey m (job.2.map Client.toLower) job.1

/-- A history of notifications is handled to its end; every job is published with the bytes of
its header, and entered. -/
theorem handleMessages_notify {msgs : List (Surroundings × Bytes)} {jobs : List (Bytes × Bytes)}
    (h : List.Forall₂ (fun m job => IsNotify m.2 job) msgs jobs) (s : Client) :
    ∃ s' cbs, handleMessages s msgs = some (s', cbs) ∧
      s'.sigmaHexToJobId = jobs.foldl enter s.sigmaHexToJobId ∧
      List.Forall₂ (fun cb job => ∃ ja, cb = .job ja job.1 ∧
        ja.sigma.toList = headerBytes job.2) cbs jobs := by
  induction h generalizing s with
  | nil => exact ⟨s, [], rfl, rfl, .nil⟩
  | @cons m job msgs jobs hm _ ih =>
    obtain ⟨env, line⟩ := m
    obtain ⟨ja, u, certVersion, hsigma, hmade⟩ := hm.makes env s
    obtain ⟨s', cbs, hrest, hentries, hcbs⟩ :=
      ih (({ s with useObjectSubmit := u } : Client).makeJob job.1 job.2 certVersion)
    refine ⟨s', .job ja job.1 :: cbs, ?_, hentries, .cons ⟨ja, rfl, ?_⟩ hcbs⟩
    · rw [handleMessages, hmade]
      dsimp only
      rw [hrest]
      rfl
    · obtain ⟨_, _, _, _, _, _, hlong⟩ := hm
      rw [hsigma, toList_sigmaOf hlong]

theorem latest_cons (p : Bytes × Bytes → Bool) (job : Bytes × Bytes)
    (jobs : List (Bytes × Bytes)) :
    latest p (job :: jobs) = (latest p jobs).or (if p job then some job.1 else none) := by
  rw [latest, List.reverse_cons, List.find?_append, latest]
  cases jobs.reverse.find? p with
  | some j => rfl
  | none =>
    cases hp : p job with
    | true => simp [hp]
    | false => simp [hp]

/-- The header is written with these digits, in either case. -/
def writtenAs (digits : Bytes) (job : Bytes × Bytes) : Bool :=
  job.2.map Client.toLower == digits

/-- The header is decoded to this sigma. -/
def decodedTo (sigma : Bytes) (job : Bytes × Bytes) : Bool := headerBytes job.2 == sigma

/-- Under a key the latest job with that text is found. -/
theorem lookupKey_foldl_enter (jobs : List (Bytes × Bytes)) (m : List (Bytes × Bytes))
    (key : Bytes) :
    lookupKey (jobs.foldl enter m) key = (latest (writtenAs key) jobs).or (lookupKey m key) := by
  induction jobs generalizing m with
  | nil => rfl
  | cons job jobs ih =>
    rw [List.foldl_cons, ih, latest_cons, enter, lookupKey_insertKey, Option.or_assoc]
    congr 1
    by_cases hkey : job.2.map Client.toLower = key
    · simp [writtenAs, hkey]
    · simp [writtenAs, hkey]

/-! ### Which job ids are found -/

/-- After the messages every job was published with the first 76 bytes of its header, and for
each of these sigmas the latest job id is found. -/
def JobIdsFound (s : Client) (msgs : List (Surroundings × Bytes)) (jobs : List (Bytes × Bytes)) :
    Prop :=
  ∃ s' cbs, handleMessages s msgs = some (s', cbs) ∧
    List.Forall₂ (fun cb job => ∃ ja, cb = .job ja job.1 ∧
      ja.sigma.toList = headerBytes job.2) cbs jobs ∧
    ∀ job ∈ jobs, ∀ sigma : Vector UInt8 kSigmaHeaderBytes, sigma.toList = headerBytes job.2 →
      some (jobIdForSigma s' sigma) = latest (decodedTo sigma.toList) jobs

/-- For every sigma the latest job has the job id of the latest one that was written with the
digits of sigma, or the one that is made up if there is none. -/
def SameUnderDigits (jobs : List (Bytes × Bytes)) : Prop :=
  ∀ job ∈ jobs,
    some ((latest (writtenAs (hexOf (headerBytes job.2))) jobs).getD
      ((hexOf (headerBytes job.2)).take 32)) = latest (decodedTo (headerBytes job.2)) jobs

theorem longHeader_of_notify {msgs : List (Surroundings × Bytes)} {jobs : List (Bytes × Bytes)}
    (h : List.Forall₂ (fun m job => IsNotify m.2 job) msgs jobs) {job : Bytes × Bytes}
    (hjob : job ∈ jobs) : LongHeader job.2 := by
  induction h with
  | nil => cases hjob
  | cons hm _ ih =>
    rcases List.mem_cons.mp hjob with rfl | hjob
    · obtain ⟨_, _, _, _, _, _, hlong⟩ := hm
      exact hlong
    · exact ih hjob

/-- What is found in a client that has handled a history from the start. -/
theorem jobIdForSigma_foldl {s : Client} {jobs : List (Bytes × Bytes)}
    (hs : s.sigmaHexToJobId = jobs.foldl enter []) (sigma : Vector UInt8 kSigmaHeaderBytes) :
    jobIdForSigma s sigma = (latest (writtenAs (hexOf sigma.toList)) jobs).getD
      ((hexOf sigma.toList).take 32) := by
  rw [jobIdForSigma, hs, lookupKey_foldl_enter]
  change ((latest _ jobs).or none).getD _ = _
  rw [Option.or_none]

section Found

variable {s : Client} {msgs : List (Surroundings × Bytes)} {jobs : List (Bytes × Bytes)}

theorem SameUnderDigits.jobIdsFound (hsame : SameUnderDigits jobs) (hs : s.sigmaHexToJobId = [])
    (h : List.Forall₂ (fun m job => IsNotify m.2 job) msgs jobs) : JobIdsFound s msgs jobs := by
  obtain ⟨s', cbs, hrun, hentries, hcbs⟩ := handleMessages_notify h s
  rw [hs] at hentries
  refine ⟨s', cbs, hrun, hcbs, fun job hjob sigma hsigma => ?_⟩
  rw [jobIdForSigma_foldl hentries, hsigma]
  exact hsame job hjob

theorem JobIdsFound.sameUnderDigits (hfound : JobIdsFound s msgs jobs)
    (hs : s.sigmaHexToJobId = [])
    (h : List.Forall₂ (fun m job => IsNotify m.2 job) msgs jobs) : SameUnderDigits jobs := by
  obtain ⟨s', cbs, hrun, hentries, -⟩ := handleMessages_notify h s
  obtain ⟨s'', cbs', hrun', -, hids⟩ := hfound
  obtain ⟨rfl, -⟩ := Prod.mk.inj (Option.some.inj (hrun.symm.trans hrun'))
  rw [hs] at hentries
  intro job hjob
  have hsigma := toList_sigmaOf (longHeader_of_notify h hjob)
  have hid := hids job hjob (sigmaOf job.2) hsigma
  rwa [jobIdForSigma_foldl hentries, hsigma] at hid

/-- Exactly in these histories every job id is found. -/
theorem jobIdsFound_iff (hs : s.sigmaHexToJobId = [])
    (h : List.Forall₂ (fun m job => IsNotify m.2 job) msgs jobs) :
    JobIdsFound s msgs jobs ↔ SameUnderDigits jobs :=
  ⟨fun hfound => hfound.sameUnderDigits hs h, fun hsame => hsame.jobIdsFound hs h⟩

end Found

/-! ### Plain headers -/

theorem hexDigitValue_of_toLower {c : UInt8} {n : ℕ} (hn : n < 16)
    (h : Client.toLower c = hexDigit n) : hexDigitValue c = some n := by
  have hall : ∀ c < 256, ∀ n < 16, Client.toLower (UInt8.ofNat c) = hexDigit n →
      hexDigitValue (UInt8.ofNat c) = some n := by decide +kernel
  have hc := hall c.toNat c.toNat_lt n hn
  rw [UInt8.ofNat_toNat] at hc
  exact hc h

/-- The digits of a byte string, in either case, are decoded to it. -/
theorem hexToBytes_of_map_toLower {h s : Bytes} (hdigits : h.map Client.toLower = hexOf s) :
    hexToBytes h = s := by
  apply hexToBytes_of_forall₂
  have hlt : ∀ n ∈ nibbles s, n < 16 := fun n hn => lt_of_mem_nibbles hn
  unfold hexOf at hdigits
  generalize nibbles s = ns at hdigits hlt
  induction h generalizing ns with
  | nil =>
    cases ns with
    | nil => exact .nil
    | cons n ns => cases hdigits
  | cons c h ih =>
    cases ns with
    | nil => cases hdigits
    | cons n ns =>
      obtain ⟨hc, hrest⟩ := List.cons.inj hdigits
      exact .cons (hexDigitValue_of_toLower (hlt n List.mem_cons_self) hc)
        (ih ns hrest fun m hm => hlt m (List.mem_cons_of_mem n hm))

/-- The header is 152 digits and nothing else. -/
def Plain (header : Bytes) : Prop :=
  LongHeader header ∧ header.map Client.toLower = hexOf (headerBytes header)

theorem length_headerBytes {header : Bytes} (h : LongHeader header) :
    (headerBytes header).length = kSigmaHeaderBytes := by
  rw [headerBytes, List.length_take, Nat.min_eq_left h]

/-- Plain headers are the same text exactly if they are the same sigma. -/
theorem writtenAs_eq_decodedTo {job : Bytes × Bytes} {sigma : Bytes} (h : Plain job.2)
    (hsigma : sigma.length = kSigmaHeaderBytes) :
    writtenAs (hexOf sigma) job = decodedTo sigma job := by
  rw [Bool.eq_iff_iff, writtenAs, decodedTo, beq_iff_eq, beq_iff_eq]
  constructor
  · intro hdigits
    rw [headerBytes, hexToBytes_of_map_toLower hdigits, List.take_of_length_le hsigma.le]
  · intro hdecoded
    rw [h.2, hdecoded]

/-- With plain headers every job id is found. -/
theorem sameUnderDigits_of_plain {jobs : List (Bytes × Bytes)} (h : ∀ job ∈ jobs, Plain job.2) :
    SameUnderDigits jobs := by
  intro job hjob
  have hsame : latest (writtenAs (hexOf (headerBytes job.2))) jobs =
      latest (decodedTo (headerBytes job.2)) jobs := by
    unfold latest
    rw [List.find?_congr fun j hj => writtenAs_eq_decodedTo (h j (List.mem_reverse.mp hj))
      (length_headerBytes (h job hjob).1)]
  -- the job itself meets the test
  have hsome : (jobs.reverse.find? (decodedTo (headerBytes job.2))).isSome = true :=
    List.find?_isSome.mpr ⟨job, List.mem_reverse.mpr hjob, beq_self_eq_true _⟩
  obtain ⟨j, hj⟩ := Option.isSome_iff_exists.mp hsome
  rw [hsame, latest, hj]
  rfl

/-- A notification of a job in an object. -/
def jobObject (jobId header : Bytes) : JsonValue :=
  notification (.object [(bytes "job_id", .string jobId), (bytes "header", .string header)])

theorem exists_isNotify (jobId : Bytes) {header : Bytes} (h : LongHeader header) :
    ∃ line, IsNotify line (jobId, header) := by
  obtain ⟨n, hparse⟩ := parse_serialize_of_integral (v := jobObject jobId header)
    ⟨trivial, ⟨trivial, trivial, trivial⟩, trivial⟩
  exact ⟨_, _, n, hparse, rfl, rfl, rfl, h⟩

/-- A header of 152 zeros is found. -/
theorem jobIdsFound_zeros :
    ∃ line, IsNotify line (bytes "a", List.replicate 152 48) ∧
      JobIdsFound {} [(⟨.refused, 0, fun _ => none⟩, line)]
        [(bytes "a", List.replicate 152 48)] := by
  have hplain : Plain (List.replicate 152 48) := by
    unfold Plain LongHeader
    decide +kernel
  obtain ⟨line, hline⟩ := exists_isNotify (bytes "a") hplain.1
  exact ⟨line, hline, (jobIdsFound_iff rfl (.cons hline .nil)).mpr
    (sameUnderDigits_of_plain (List.forall_mem_singleton.mpr hplain))⟩

/-- The same header with a marker is entered under another text. -/
theorem not_jobIdsFound_marker :
    ∃ line, IsNotify line (bytes "a", bytes "0x" ++ List.replicate 152 48) ∧
      ¬ JobIdsFound {} [(⟨.refused, 0, fun _ => none⟩, line)]
        [(bytes "a", bytes "0x" ++ List.replicate 152 48)] := by
  have hlong : LongHeader (bytes "0x" ++ List.replicate 152 48) := by
    unfold LongHeader
    decide +kernel
  obtain ⟨line, hline⟩ := exists_isNotify (bytes "a") hlong
  refine ⟨line, hline, fun hfound => ?_⟩
  have hsame := hfound.sameUnderDigits rfl (.cons hline .nil) _ List.mem_cons_self
  exact absurd hsame (by decide +kernel)

end PropMiner.Stratum
