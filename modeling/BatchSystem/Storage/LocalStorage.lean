import BatchSystem.Core.JsonRead
import BatchSystem.Core.Lines
import BatchSystem.Domain.Models
import Mathlib.Data.List.Sort
import Mathlib.Data.String.Basic

/-!
# `LocalFileStorage`

One JSONL file per chunk under `jobs/{job}/chunks/`. `writeChunk` joins the
records with newlines, `iterResults` splits the files with `splitlines`, so a
record is read back only if its text holds no other line boundary
(`clean_iff`).

* `readText_lines`: a file of clean records reads back as these records.
* `readText_cut`: a file whose writer died half way reads as a prefix of the
  records, and reads to its end only if the cut is at the end of a record
  (`Sound`) and no record before it holds a foreign line boundary.
-/
namespace BatchSystem.Storage

open BatchSystem.Core BatchSystem.Core.Json Domain

/-! ## Records as JSON -/

/-- `ItemStatus(...).value`. mirrors app/domain/enums.py:15-19 -/
def statusValue : ItemStatus → String
  | .pending => "PENDING"
  | .claimed => "CLAIMED"
  | .succeeded => "SUCCEEDED"
  | .failed => "FAILED"

def statusOf (s : String) : Option ItemStatus :=
  if s = "PENDING" then some .pending
  else if s = "CLAIMED" then some .claimed
  else if s = "SUCCEEDED" then some .succeeded
  else if s = "FAILED" then some .failed
  else none

def optStr : Option String → Json
  | none => .null
  | some s => .str s

def optInt : Option Int → Json
  | none => .null
  | some n => .num n

def members (r : ResultRecord) : List (String × Json) :=
  [("external_id", .str r.externalId), ("status", .str (statusValue r.status)),
    ("response", optStr r.response), ("error", optStr r.error), ("attempts", .num r.attempts),
    ("latency_ms", optInt r.latencyMs)]

def recordJson (r : ResultRecord) : Json := .obj (members r)

/-- `ResultRecord.model_dump_json()`. -/
def modelDumpJson (r : ResultRecord) : List Char := dump (recordJson r)

/-- What ends the reading of a file: its bytes are not UTF-8, a line is not
JSON, or it is not a record. -/
inductive ReadError where
  | decode | json | record
  deriving DecidableEq, Repr

def toStr : Option Json → Except ReadError String
  | some (.str s) => .ok s
  | _ => .error .record

def toStatus : Option Json → Except ReadError ItemStatus
  | some (.str s) => match statusOf s with
    | some st => .ok st
    | none => .error .record
  | _ => .error .record

def toOptStr : Option Json → Except ReadError (Option String)
  | none | some .null => .ok none
  | some (.str s) => .ok (some s)
  | _ => .error .record

def toInt : Option Json → Except ReadError Int
  | none => .ok 0
  | some (.num n) => .ok n
  | _ => .error .record

def toOptInt : Option Json → Except ReadError (Option Int)
  | none | some .null => .ok none
  | some (.num n) => .ok (some n)
  | _ => .error .record

/-- `ResultRecord(**value)` with the declared defaults; unknown keys are
ignored. Values of another type, which pydantic would convert or refuse, are
refused: no chunk file holds one. -/
def ofJson : Json → Except ReadError ResultRecord
  | .obj ms =>
    (toStr (lookup ms "external_id")).bind fun externalId =>
    (toStatus (lookup ms "status")).bind fun status =>
    (toOptStr (lookup ms "response")).bind fun response =>
    (toOptStr (lookup ms "error")).bind fun error =>
    (toInt (lookup ms "attempts")).bind fun attempts =>
    (toOptInt (lookup ms "latency_ms")).bind fun latencyMs =>
    .ok { externalId, status, response, error, attempts, latencyMs }
  | _ => .error .record

theorem statusOf_value (st : ItemStatus) : statusOf (statusValue st) = some st := by
  cases st <;> decide

theorem lookup_members (r : ResultRecord) :
    lookup (members r) "external_id" = some (.str r.externalId) ∧
    lookup (members r) "status" = some (.str (statusValue r.status)) ∧
    lookup (members r) "response" = some (optStr r.response) ∧
    lookup (members r) "error" = some (optStr r.error) ∧
    lookup (members r) "attempts" = some (.num r.attempts) ∧
    lookup (members r) "latency_ms" = some (optInt r.latencyMs) := by
  simp [lookup, members]

theorem toOptStr_optStr (s : Option String) : toOptStr (some (optStr s)) = .ok s := by
  cases s <;> rfl

theorem toOptInt_optInt (n : Option Int) : toOptInt (some (optInt n)) = .ok n := by
  cases n <;> rfl

theorem ofJson_recordJson (r : ResultRecord) : ofJson (recordJson r) = .ok r := by
  obtain ⟨h1, h2, h3, h4, h5, h6⟩ := lookup_members r
  simp only [recordJson, ofJson, h1, h2, h3, h4, h5, h6, toOptStr_optStr, toOptInt_optInt, toStr,
    toStatus, statusOf_value, toInt, Except.bind]

theorem recordJson_wf (r : ResultRecord) : (recordJson r).WF := by
  simp only [recordJson, members, WF, WFMembers, true_and, and_true]
  refine ⟨?_, ?_, ?_⟩
  · cases r.response <;> trivial
  · cases r.error <;> trivial
  · cases r.latencyMs <;> trivial

theorem loads_modelDumpJson (r : ResultRecord) : loads (modelDumpJson r) = some (recordJson r) :=
  loads_dump (recordJson_wf r)

/-! ## Line boundaries in a printed record -/

/-- A line boundary that the printer does not escape: U+0085, U+2028 or
U+2029. -/
def foreignBreak (c : Char) : Bool := c.toNat = 0x85 || c.toNat = 0x2028 || c.toNat = 0x2029

/-- The string fields of a record. -/
def strings (r : ResultRecord) : List String :=
  r.externalId :: (r.response.toList ++ r.error.toList)

/-- No string field holds a line boundary that the printer leaves as it is. -/
def Clean (r : ResultRecord) : Prop := ∀ s ∈ strings r, ∀ c ∈ s.toList, foreignBreak c = false

instance (r : ResultRecord) : Decidable (Clean r) :=
  @List.decidableBAll _ _ (fun _ => List.decidableBAll _ _) (strings r)

theorem hexDigit_no_break : ∀ d < 16, isLineBreak (hexDigit d) = false := by decide

/-- The printer keeps exactly the foreign boundaries. -/
theorem escChar_break (c : Char) : (escChar c).any isLineBreak = foreignBreak c := by
  have hlow : c.toNat < 128 → foreignBreak c = false := by
    intro h
    simp only [foreignBreak, Bool.or_eq_false_iff, decide_eq_false_iff_not]
    omega
  unfold escChar
  split_ifs with h1 h2 h3 h4 h5 h6 h7 h8
  · subst h1; decide
  · subst h2; decide
  · subst h3; decide
  · subst h4; decide
  · subst h5; decide
  · rw [hlow (by omega)]; decide
  · rw [hlow (by omega)]; decide
  · have hc : ∀ d ∈ ['\\', 'u', '0'], isLineBreak d = false := by simp [isLineBreak]
    simp [hlow (by omega), hc, hexDigit_no_break (c.toNat / 16) (by omega),
      hexDigit_no_break (c.toNat % 16) (by omega)]
  · rw [List.any_cons, List.any_nil, Bool.or_false, isLineBreak, foreignBreak,
      decide_eq_false (by omega : ¬ c.toNat ≤ 13), decide_eq_false (by omega : ¬ c.toNat ≤ 30)]
    simp

theorem dumpStr_break (s : String) : (dumpStr s).any isLineBreak = s.toList.any foreignBreak := by
  have hq : isLineBreak '"' = false := by decide
  have he : (fun c => (escChar c).any isLineBreak) = foreignBreak := funext escChar_break
  simp [dumpStr, escape, hq, List.any_flatMap, he]

theorem dumpNum_break (n : Int) : (dumpNum n).any isLineBreak = false := by
  rw [List.any_eq_false]
  intro c hc
  have h := (dumpNum_chars n).2 c hc
  simp only [isNumChar, Bool.or_eq_true, decide_eq_true_eq, Char.isDigit_iff_toNat] at h
  rcases h with ((((⟨h1, h2⟩ | rfl) | rfl) | rfl) | rfl) | rfl
  · simp only [Char.reduceToNat] at h1 h2
    simp only [isLineBreak, Bool.or_eq_true, Bool.and_eq_true, decide_eq_true_eq]
    omega
  all_goals decide

theorem optStr_break (s : Option String) :
    (dump (optStr s)).any isLineBreak = s.toList.any fun s => s.toList.any foreignBreak := by
  cases s with
  | none => decide
  | some s => simp [optStr, dump, dumpStr_break]

theorem optInt_break (n : Option Int) : (dump (optInt n)).any isLineBreak = false := by
  cases n with
  | none => decide
  | some n => exact dumpNum_break n

/-- A printed record holds a line boundary exactly if a string field holds a
foreign one. -/
theorem modelDumpJson_break (r : ResultRecord) : (modelDumpJson r).any isLineBreak =
    (strings r).any fun s => s.toList.any foreignBreak := by
  have hst : (statusValue r.status).toList.any foreignBreak = false := by
    cases r.status <;> decide
  have hk : ∀ k ∈ ["external_id", "status", "response", "error", "attempts", "latency_ms"],
      k.toList.any foreignBreak = false := by decide
  have hc : ∀ c ∈ ['{', '}', ':', ','], isLineBreak c = false := by simp [isLineBreak]
  simp only [List.mem_cons, List.not_mem_nil, or_false, forall_eq_or_imp, forall_eq] at hk hc
  simp only [modelDumpJson, recordJson, members, dump, dumpMembers, List.any_cons, List.any_append,
    dumpStr_break, optStr_break, optInt_break, dumpNum_break, hst, hk, hc, strings, List.any_nil,
    Bool.false_or, Bool.or_false]

theorem clean_iff (r : ResultRecord) :
    Clean r ↔ ∀ c ∈ modelDumpJson r, isLineBreak c = false := by
  have h := modelDumpJson_break r
  constructor
  · intro hr
    have hf : (modelDumpJson r).any isLineBreak = false := by
      rw [h, List.any_eq_false]
      intro s hs
      rw [Bool.not_eq_true, List.any_eq_false]
      intro c hc
      rw [hr s hs c hc]; decide
    simpa using hf
  · intro hd s hs c hc
    by_contra hne
    have ht : (modelDumpJson r).any isLineBreak = true := by
      rw [h, List.any_eq_true]
      exact ⟨s, hs, List.any_eq_true.mpr ⟨c, hc, by simpa using hne⟩⟩
    obtain ⟨b, hb, hbt⟩ := List.any_eq_true.mp ht
    rw [hd b hb] at hbt; cases hbt

/-! ## Files -/

/-- A chunk id is the stem of a file name. -/
structure ChunkId where
  name : String
  plain : ∀ c ∈ name.toList, c ≠ '/' ∧ c.toNat ≠ 0
  deriving DecidableEq

/-- The file `{root}/jobs/{jobId}/chunks/{chunkId}.jsonl`. It is `torn` when
its bytes break off inside a character. -/
structure ChunkFile where
  jobId : JobId
  chunkId : ChunkId
  text : List Char
  torn : Bool := false
  deriving DecidableEq

def fileName (chunkId : ChunkId) : String := chunkId.name ++ ".jsonl"

/-- mirrors app/infrastructure/storage/local_storage.py:28 -/
def chunkRef (job : JobId) (chunkId : ChunkId) : String :=
  "jobs/" ++ job ++ "/chunks/" ++ fileName chunkId

/-- mirrors app/infrastructure/storage/local_storage.py:29 -/
def payload (records : List ResultRecord) : List Char :=
  ['\n'].intercalate (records.map modelDumpJson) ++ ['\n']

/-- Opening a file for writing creates or truncates it. -/
def putFile (files : List ChunkFile) (f : ChunkFile) : List ChunkFile :=
  if files.any (fun g => g.jobId = f.jobId ∧ g.chunkId = f.chunkId) then
    files.map fun g => if g.jobId = f.jobId ∧ g.chunkId = f.chunkId then f else g
  else files ++ [f]

/-- mirrors app/infrastructure/storage/local_storage.py:24-36 -/
def writeChunk (files : List ChunkFile) (job : JobId) (chunkId : ChunkId)
    (records : List ResultRecord) : List ChunkFile × String :=
  (putFile files { jobId := job, chunkId, text := payload records }, chunkRef job chunkId)

/-- A `write_chunk` that stopped after `n` characters, or after a part of the
bytes of the next one. -/
def writePart (files : List ChunkFile) (job : JobId) (chunkId : ChunkId)
    (records : List ResultRecord) (n : Nat) (torn : Bool) : List ChunkFile :=
  putFile files
    { jobId := job, chunkId, text := (payload records).take n,
      torn := torn && ((payload records).drop n).head?.any fun c => 128 ≤ c.toNat }

/-- The loop over the lines of a file: the records yielded and the error that
ended it. mirrors app/infrastructure/storage/local_storage.py:51-53 -/
def readLines : List (List Char) → List ResultRecord × Option ReadError
  | [] => ([], none)
  | line :: rest =>
    if strip line = [] then readLines rest
    else match loads line with
      | none => ([], some .json)
      | some v => match ofJson v with
        | .error e => ([], some e)
        | .ok r => (r :: (readLines rest).1, (readLines rest).2)

def readText (text : List Char) : List ResultRecord × Option ReadError :=
  readLines (splitLines text)

def readFile (f : ChunkFile) : List ResultRecord × Option ReadError :=
  if f.torn then ([], some .decode) else readText f.text

/-- mirrors app/infrastructure/storage/local_storage.py:47-53 -/
def readFiles : List ChunkFile → List ResultRecord × Option ReadError
  | [] => ([], none)
  | f :: rest => match readFile f with
    | (rs, some e) => (rs, some e)
    | (rs, none) => (rs ++ (readFiles rest).1, (readFiles rest).2)

/-- `sorted(chunks_dir.glob("*.jsonl"))`.
mirrors app/infrastructure/storage/local_storage.py:41-44 -/
def listChunks (files : List ChunkFile) (job : JobId) : List ChunkFile :=
  (files.filter fun f => f.jobId = job).insertionSort fun f g =>
    fileName f.chunkId ≤ fileName g.chunkId

/-- mirrors app/infrastructure/storage/local_storage.py:38-53 -/
def iterResults (files : List ChunkFile) (job : JobId) : List ResultRecord × Option ReadError :=
  readFiles (listChunks files job)

/-! ## Writing one file -/

section put
variable {files : List ChunkFile} {f g : ChunkFile}

theorem putFile_self : f ∈ putFile files f := by
  unfold putFile
  split
  · rename_i h
    obtain ⟨g, hg, he⟩ := List.any_eq_true.mp h
    exact List.mem_map.mpr ⟨g, hg, if_pos (of_decide_eq_true he)⟩
  · simp

theorem mem_putFile (h : g ∈ putFile files f) :
    g = f ∨ (g ∈ files ∧ ¬ (g.jobId = f.jobId ∧ g.chunkId = f.chunkId)) := by
  unfold putFile at h
  split at h
  · obtain ⟨x, hx, rfl⟩ := List.mem_map.mp h
    split
    · exact .inl rfl
    · rename_i hne; exact .inr ⟨hx, hne⟩
  · rename_i hn
    rcases List.mem_append.mp h with hg | hg
    · refine .inr ⟨hg, fun he => hn ?_⟩
      exact List.any_eq_true.mpr ⟨g, hg, decide_eq_true he⟩
    · exact .inl (List.mem_singleton.mp hg)

theorem putFile_other (hg : g ∈ files) (hne : ¬ (g.jobId = f.jobId ∧ g.chunkId = f.chunkId)) :
    g ∈ putFile files f := by
  unfold putFile
  split
  · exact List.mem_map.mpr ⟨g, hg, if_neg hne⟩
  · exact List.mem_append_left _ hg

/-- Chunk ids stay distinct when a file of another job never has the id. -/
theorem putFile_nodup (hn : (files.map ChunkFile.chunkId).Nodup)
    (hj : ∀ g ∈ files, g.chunkId = f.chunkId → g.jobId = f.jobId) :
    ((putFile files f).map ChunkFile.chunkId).Nodup := by
  unfold putFile
  split
  · have : (files.map fun g => if g.jobId = f.jobId ∧ g.chunkId = f.chunkId then f else g).map
        ChunkFile.chunkId = files.map ChunkFile.chunkId := by
      rw [List.map_map]
      refine List.map_congr_left fun g _ => ?_
      simp only [Function.comp]
      split
      · rename_i h; exact h.2.symm
      · rfl
    rwa [this]
  · rename_i h
    rw [List.map_append, List.map_singleton]
    refine List.nodup_append.mpr ⟨hn, by simp, fun a ha b hb => ?_⟩
    obtain rfl := List.mem_singleton.mp hb
    rintro rfl
    obtain ⟨g, hg, he⟩ := List.mem_map.mp ha
    exact h (List.any_eq_true.mpr ⟨g, hg, decide_eq_true ⟨hj g hg he, he⟩⟩)

end put

/-! ## Reading what was written -/

/-- The records as lines, each ended by a newline. -/
def lines (rs : List ResultRecord) : List Char := (rs.map modelDumpJson).flatMap (· ++ ['\n'])

theorem lines_cons (r : ResultRecord) (rs : List ResultRecord) :
    lines (r :: rs) = modelDumpJson r ++ '\n' :: lines rs := by simp [lines]

theorem payload_eq_lines {rs : List ResultRecord} (h : rs ≠ []) : payload rs = lines rs := by
  induction rs with
  | nil => contradiction
  | cons r rs ih =>
    cases rs with
    | nil => simp [payload, lines, List.intercalate]
    | cons q qs =>
      rw [lines_cons, ← ih (by simp)]
      simp [payload, List.intercalate]

theorem modelDumpJson_cons (r : ResultRecord) : ∃ s, modelDumpJson r = '{' :: s := ⟨_, rfl⟩

theorem strip_ne_nil {s : List Char} : strip ('{' :: s) ≠ [] := by
  intro h
  exact absurd (strip_eq_nil.mp h '{' List.mem_cons_self) (by decide)

theorem readLines_record (r : ResultRecord) (ls : List (List Char)) :
    readLines (modelDumpJson r :: ls) = (r :: (readLines ls).1, (readLines ls).2) := by
  obtain ⟨s, hs⟩ := modelDumpJson_cons r
  have hl := loads_modelDumpJson r
  rw [hs] at hl ⊢
  rw [readLines, if_neg strip_ne_nil]
  simp only [hl, ofJson_recordJson]

/-- Clean records are read back, and the rest of the text after them. -/
theorem readText_lines {rs : List ResultRecord} (h : ∀ r ∈ rs, Clean r) (s : List Char) :
    readText (lines rs ++ s) = (rs ++ (readText s).1, (readText s).2) := by
  have hl : ∀ l ∈ rs.map modelDumpJson, ∀ c ∈ l, isLineBreak c = false := by
    intro l hl
    obtain ⟨r, hr, rfl⟩ := List.mem_map.mp hl
    exact (clean_iff r).mp (h r hr)
  rw [readText, lines, splitLines_terminated hl]
  clear h hl
  induction rs with
  | nil => rfl
  | cons r rs ih => rw [List.map_cons, List.cons_append, readLines_record, ih]; rfl

/-- A line that is a part of a record is not JSON. -/
theorem readLines_part {r : ResultRecord} {p q : List Char} (h : p ++ q = modelDumpJson r)
    (hp : p ≠ []) (hq : q ≠ []) (ls : List (List Char)) :
    readLines (p :: ls) = ([], some .json) := by
  have hn : loads p = none := loads_prefix (recordJson_wf r) h hq
  obtain ⟨s, hs⟩ := modelDumpJson_cons r
  obtain ⟨c, p', rfl⟩ := List.exists_cons_of_ne_nil hp
  obtain rfl : c = '{' := by
    rw [hs] at h; exact (List.cons.inj h).1
  rw [readLines, if_neg strip_ne_nil]
  simp only [hn]

/-- A line boundary inside a record ends the reading there. -/
theorem readText_broken {r : ResultRecord} {p q : List Char} (h : p ++ q = modelDumpJson r)
    (hb : ∃ c ∈ p, isLineBreak c = true) (s : List Char) :
    readText (p ++ s) = ([], some .json) := by
  obtain ⟨l, b, t, rfl, hbt, hl⟩ := exists_break hb
  obtain ⟨ls, hls⟩ := splitLines_first hl hbt (t ++ s)
  have hne : l ≠ [] := by
    rintro rfl
    obtain ⟨u, hu⟩ := modelDumpJson_cons r
    rw [hu] at h
    rw [(List.cons.inj h).1] at hbt
    exact absurd hbt (by decide)
  rw [readText, List.append_assoc, List.cons_append, hls]
  exact readLines_part (q := b :: (t ++ q)) (by simpa using h) hne (by simp) ls

/-- A whole chunk file reads back exactly if its records are clean. -/
theorem readText_payload (rs : List ResultRecord) :
    ((∀ r ∈ rs, Clean r) ∧ readText (payload rs) = (rs, none)) ∨
    ((∃ r ∈ rs, ¬ Clean r) ∧ (readText (payload rs)).2 ≠ none) := by
  by_cases hn : rs = []
  · subst hn
    have he : readText (payload []) = ([], none) := by decide
    exact .inl ⟨by simp, he⟩
  rw [payload_eq_lines hn]
  by_cases hc : ∀ r ∈ rs, Clean r
  · refine .inl ⟨hc, ?_⟩
    have h := readText_lines hc []
    rw [List.append_nil] at h
    rw [h]
    exact Prod.ext (List.append_nil rs) rfl
  · refine .inr ⟨by simpa using hc, fun he => ?_⟩
    -- the first record that is not clean ends the reading
    obtain ⟨r, hr, hnc⟩ : ∃ r ∈ rs, ¬ Clean r := by simpa using hc
    clear hn hc
    induction rs with
    | nil => cases hr
    | cons q qs ih =>
      rw [lines_cons] at he
      by_cases hq : Clean q
      · have h := readText_lines (by simpa using hq : ∀ r ∈ [q], Clean r) (lines qs)
        have hl : lines [q] ++ lines qs = modelDumpJson q ++ '\n' :: lines qs := by simp [lines]
        rw [hl] at h
        rw [h] at he
        rcases List.mem_cons.mp hr with rfl | hr
        · exact hnc hq
        · exact ih he hr
      · have hb : ∃ c ∈ modelDumpJson q, isLineBreak c = true := by
          rw [clean_iff] at hq; simpa using hq
        rw [readText_broken (List.append_nil _) hb] at he
        cases he

/-- Whole clean records, each on its line; the last newline may be missing. -/
def Sound (text : List Char) : Prop :=
  ∃ rs, (∀ r ∈ rs, Clean r) ∧ (text = lines rs ∨ ∃ r, Clean r ∧ text = lines rs ++ modelDumpJson r)

theorem readText_single {r : ResultRecord} (h : Clean r) :
    readText (modelDumpJson r) = ([r], none) := by
  obtain ⟨s, hs⟩ := modelDumpJson_cons r
  rw [readText, splitLines_no_break ((clean_iff r).mp h), if_neg (by simp [hs]), readLines_record]
  rfl

theorem readText_sound {text : List Char} (h : Sound text) : (readText text).2 = none := by
  obtain ⟨rs, hrs, rfl | ⟨r, hr, rfl⟩⟩ := h
  · have := readText_lines hrs []
    rw [List.append_nil] at this
    rw [this]; rfl
  · rw [readText_lines hrs, readText_single hr]

/-- A part of one record: nothing, the whole record, or an error. -/
theorem readText_part {r : ResultRecord} {p q : List Char} (h : p ++ q = modelDumpJson r) :
    (p = [] ∧ readText p = ([], none)) ∨
    (p = modelDumpJson r ∧ Clean r ∧ readText p = ([r], none)) ∨
    readText p = ([], some .json) := by
  by_cases hp : p = []
  · subst hp; exact .inl ⟨rfl, rfl⟩
  by_cases hb : ∃ c ∈ p, isLineBreak c = true
  · have := readText_broken h hb []
    rw [List.append_nil] at this
    exact .inr (.inr this)
  · have hnb : ∀ c ∈ p, isLineBreak c = false := by simpa using hb
    by_cases hq : q = []
    · subst hq
      rw [List.append_nil] at h
      have hc : Clean r := (clean_iff r).mpr (h ▸ hnb)
      exact .inr (.inl ⟨h, hc, h ▸ readText_single hc⟩)
    · right; right
      rw [readText, splitLines_no_break hnb, if_neg hp]
      exact readLines_part h hp hq []

/-- A text cut anywhere reads as the first records, and to its end exactly if
it is sound. -/
theorem readText_cut {rs : List ResultRecord} {text : List Char} (h : text <+: lines rs) :
    (∃ k, (readText text).1 = rs.take k) ∧ ((readText text).2 = none ↔ Sound text) := by
  suffices hk : (∃ k, (readText text).1 = rs.take k) ∧ ((readText text).2 = none → Sound text) from
    ⟨hk.1, hk.2, readText_sound⟩
  induction rs generalizing text with
  | nil =>
    obtain rfl : text = [] := by simpa [lines] using h
    exact ⟨⟨0, rfl⟩, fun _ => ⟨[], by simp, .inl rfl⟩⟩
  | cons r rs ih =>
    have part : ∀ {p q}, p ++ q = modelDumpJson r →
        (∃ k, (readText p).1 = (r :: rs).take k) ∧ ((readText p).2 = none → Sound p) := by
      intro p q hpq
      rcases readText_part hpq with ⟨rfl, he⟩ | ⟨rfl, hc, he⟩ | he
      · exact ⟨⟨0, by rw [he]; rfl⟩, fun _ => ⟨[], by simp, .inl rfl⟩⟩
      · exact ⟨⟨1, by rw [he]; simp⟩, fun _ => ⟨[], by simp, .inr ⟨r, hc, by simp [lines]⟩⟩⟩
      · exact ⟨⟨0, by rw [he]; rfl⟩, fun hn => by rw [he] at hn; cases hn⟩
    obtain ⟨t, ht⟩ := h
    rw [lines_cons] at ht
    rcases List.append_eq_append_iff.mp ht with ⟨c, hd, -⟩ | ⟨c, rfl, hc⟩
    · exact part hd.symm
    · cases c with
      | nil => rw [List.append_nil]; exact part (List.append_nil _)
      | cons d c =>
        obtain ⟨rfl, hcut⟩ := List.cons.inj hc
        by_cases hr : Clean r
        · -- the record was read, and the rest of the text is a cut of the others
          obtain ⟨⟨k, hk⟩, hs⟩ := ih ⟨t, hcut.symm⟩
          have he := readText_lines (by simpa using hr : ∀ q ∈ [r], Clean q) c
          have hl : lines [r] ++ c = modelDumpJson r ++ '\n' :: c := by simp [lines]
          rw [hl] at he
          refine ⟨⟨k + 1, by rw [he, hk]; rfl⟩, fun hn => ?_⟩
          rw [he] at hn
          obtain ⟨qs, hqs, hq⟩ := hs hn
          refine ⟨r :: qs, by simpa [hr] using hqs, ?_⟩
          rcases hq with rfl | ⟨q, hq, rfl⟩
          · exact .inl (lines_cons r qs).symm
          · exact .inr ⟨q, hq, by simp [lines_cons]⟩
        · have hb : ∃ c ∈ modelDumpJson r, isLineBreak c = true := by
            rw [clean_iff] at hr; simpa using hr
          have he := readText_broken (List.append_nil (modelDumpJson r)) hb ('\n' :: c)
          exact ⟨⟨0, by rw [he]; rfl⟩, fun hn => by rw [he] at hn; cases hn⟩

end BatchSystem.Storage
