import AeraRecovery.Payload.WriteBatch

namespace AeraRecovery.Payload.DirectProgress

open Lib Text Direct WriteOperation WriteBatch List UInt64
open Bytes (ascii)

inductive PayloadPhase
  | queued | preparing | writing | written | verifying | verified | failed | notFlashed
  deriving DecidableEq

structure DirectTarget where
  name : Bytes
  bytes : UInt64

/-- What the recovery has learnt about the targets, and the calls of `progress` it has made. -/
structure Progress where
  previous : List UInt64
  phases : List PayloadPhase
  calls : List (Nat × PayloadPhase × UInt64) := []

variable (targets : List DirectTarget)

def Progress.fresh : Progress where
  previous := replicate targets.length 0
  phases := replicate targets.length .queued

def nextPhase (phase : Bytes) (done total : UInt64) : Option PayloadPhase :=
  if phase = ascii "writing" then some .writing
  else if phase = ascii "written" ∧ done = total then some .written
  else if phase = ascii "failed" then some .failed
  else none

/-- The part of `ParseDirectProgress` after the tokens were read. -/
def applyProgress (name phase : Bytes) (done total : UInt64) (progress : Progress) :
    Option Progress := do
  let i ← targets.findIdx? fun t => t.name = name
  let target ← targets[i]?
  let before := progress.phases.getD i .queued
  if progress.previous.length ≠ targets.length ∨ progress.phases.length ≠ targets.length ∨ total ≠ target.bytes ∨
      done > total ∨ done < progress.previous.getD i 0 then none
  else
    let next ← nextPhase phase done total
    if (before = .written ∨ before = .failed) ∧ before ≠ next then none
    else some ⟨progress.previous.set i done, progress.phases.set i next, progress.calls ++ [(i, next, done)]⟩

def parseDirectProgress (progress : Progress) (line : Bytes) : Option Progress := do
  let (marker, rest) ← extractWord line
  let (name, rest) ← extractWord rest
  let (phase, rest) ← extractWord rest
  let (done, rest) ← extractNumber rest
  let (total, rest) ← extractNumber rest
  if extractWord rest ≠ none ∨ marker ≠ ascii "AERA_PARTITION" then none
  else applyProgress targets name phase done total progress

/-- The variables of the loop of `RunOtaripperBatch` that reads the pipe. -/
structure Reader where
  line : Bytes := []
  progress : Progress
  protocolOk : Bool := true
  diagnostic : Bytes := []
  stderr : List Bytes := []

def isPartition (line : Bytes) : Bool := (ascii "AERA_PARTITION ").isPrefixOf line

def isAffinity (line : Bytes) : Bool := (ascii "AERA_AFFINITY ").isPrefixOf line

def isProgress (line : Bytes) : Bool := (ascii "AERA_PROGRESS ").isPrefixOf line

def Reader.endLine (r : Reader) : Reader :=
  if isPartition r.line then
    match parseDirectProgress targets r.progress r.line with
    | some progress => { r with line := [], progress }
    | none => { r with line := [], protocolOk := false }
  else if isAffinity r.line then { r with line := [], stderr := r.stderr ++ [r.line] }
  else if isProgress r.line then { r with line := [] }
  else
    let diagnostic := r.diagnostic ++ r.line ++ [10]
    { r with line := [], diagnostic := diagnostic.drop (diagnostic.length - 8192) }

def Reader.feed (r : Reader) (c : UInt8) : Reader :=
  if c = 10 then r.endLine targets
  else if r.line.length < 4096 then { r with line := r.line ++ [c] }
  else { r with protocolOk := false }

def collect (bytes : Bytes) : Reader :=
  bytes.foldl (Reader.feed targets) { progress := .fresh targets }

def stdout (lines : List Bytes) : Bytes := lines.flatMap (· ++ [10])

variable {targets : List DirectTarget}

/-- A line that the loop takes in whole and does not collect as a diagnostic. -/
structure Clean (line : Bytes) : Prop where
  newline : 10 ∉ line
  length : line.length ≤ 4096
  kind : isPartition line = true ∨ isAffinity line = false ∧ isProgress line = true

theorem feed_bytes {r : Reader} {w : Bytes} (hw : 10 ∉ w) (hlen : r.line.length + w.length ≤ 4096) :
    w.foldl (Reader.feed targets) r = { r with line := r.line ++ w } := by
  induction w generalizing r with
  | nil => rw [foldl_nil, append_nil]
  | cons c w ih =>
    rw [mem_cons, not_or] at hw
    rw [length_cons] at hlen
    have hc : r.feed targets c = { r with line := r.line ++ [c] } := by
      rw [Reader.feed, if_neg (Ne.symm hw.1), if_pos (by omega)]
    rw [foldl_cons, hc, ih hw.2 (by rw [length_append, length_singleton]; omega), append_assoc]
    rfl

theorem collect_clean {lines : List Bytes} {progress : Progress} (hclean : ∀ line ∈ lines, Clean line)
    (h : (lines.filter isPartition).foldlM (parseDirectProgress targets) (.fresh targets) = some progress) :
    collect targets (stdout lines) = { progress } := by
  have hfold : ∀ (lines : List Bytes) (before : Progress), (∀ line ∈ lines, Clean line) →
      (lines.filter isPartition).foldlM (parseDirectProgress targets) before = some progress →
      (stdout lines).foldl (Reader.feed targets) { progress := before } = { progress } := by
    intro lines
    induction lines with
    | nil =>
      intro before _ h
      obtain rfl := Option.some.inj h
      rfl
    | cons line lines ih =>
      intro before hclean h
      rw [forall_mem_cons] at hclean
      obtain ⟨hline, hclean⟩ := hclean
      have hread : (stdout (line :: lines)).foldl (Reader.feed targets) { progress := before } =
          (stdout lines).foldl (Reader.feed targets) (Reader.endLine targets { line, progress := before }) := by
        rw [stdout, flatMap_cons, foldl_append, foldl_append,
          feed_bytes hline.newline (by rw [length_nil, Nat.zero_add]; exact hline.length)]
        rfl
      rw [hread]
      by_cases hkind : isPartition line = true
      · rw [filter_cons_of_pos hkind] at h
        obtain ⟨next, hnext, h⟩ := Option.bind_eq_some_iff.mp h
        rw [Reader.endLine, if_pos hkind, hnext]
        exact ih next hclean h
      · rw [filter_cons_of_neg hkind] at h
        obtain ⟨haffinity, hprogress⟩ := hline.kind.resolve_left hkind
        rw [Reader.endLine, if_neg hkind, if_neg (by rw [haffinity]; exact Bool.false_ne_true), if_pos hprogress]
        exact ih before hclean h
  exact hfold lines _ hclean h

def payloadPhase : Phase → PayloadPhase
  | .writing => .writing
  | .written => .written
  | _ => .failed

theorem not_space_label (phase : Phase) : phase.label ≠ [] ∧ ∀ c ∈ phase.label, isSpace c = false := by
  cases phase <;> exact ⟨by decide, by decide +kernel⟩

variable {name : Bytes}

theorem not_space_name (h : nameAccepted name = true) : name ≠ [] ∧ ∀ c ∈ name, isSpace c = false := by
  simp only [nameAccepted, Bool.and_eq_true, decide_eq_true_eq, all_eq_true, isAsciiAlphanumeric,
    Bool.or_eq_true, UInt8.le_iff_toNat_le, ← UInt8.toNat_inj, UInt8.reduceToNat] at h
  refine ⟨h.1.1, fun c hc => ?_⟩
  have := h.2 c hc
  exact isSpace_eq_false (by omega)

theorem extractWords_partitionLine (hname : nameAccepted name = true) (phase : Phase) (count size : Nat) :
    extractWord (partitionLine name phase count size) = some (ascii "AERA_PARTITION",
          32 :: (name ++ 32 :: (phase.label ++ 32 :: (decimal count ++ 32 :: decimal size)))) ∧
      extractWord (name ++ 32 :: (phase.label ++ 32 :: (decimal count ++ 32 :: decimal size))) =
        some (name, 32 :: (phase.label ++ 32 :: (decimal count ++ 32 :: decimal size))) ∧
      extractWord (phase.label ++ 32 :: (decimal count ++ 32 :: decimal size)) =
        some (phase.label, 32 :: (decimal count ++ 32 :: decimal size)) := by
  have hmarker : ∀ c ∈ ascii "AERA_PARTITION", isSpace c = false := by decide +kernel
  obtain ⟨hne, hspace⟩ := not_space_name hname
  obtain ⟨hlabel, hlabelSpace⟩ := not_space_label phase
  refine ⟨?_, ?_, ?_⟩
  · exact extractWord_append (by decide) hmarker (delimited_blank _)
  · exact extractWord_append hne hspace (delimited_blank _)
  · exact extractWord_append hlabel hlabelSpace (delimited_blank _)

variable {count size : Nat}

theorem parse_partitionLine (hname : nameAccepted name = true) (phase : Phase)
    (hcount : count < 2 ^ 64) (hsize : size < 2 ^ 64) (progress : Progress) :
    parseDirectProgress targets progress (partitionLine name phase count size) =
      applyProgress targets name phase.label (UInt64.ofNat count) (UInt64.ofNat size) progress := by
  obtain ⟨h₁, h₂, h₃⟩ := extractWords_partitionLine hname phase count size
  have h₄ := extractNumber_decimal hcount (delimited_blank (decimal size))
  have h₅ := extractNumber_decimal hsize delimited_nil
  rw [append_nil] at h₅
  simp only [parseDirectProgress, h₁, h₂, h₃, h₄, h₅, extractWord_blank, extractNumber_blank, extractWord_nil,
    Option.bind_eq_bind, Option.bind_some, ne_eq, not_true_eq_false, or_self, if_false]

variable {phase : Phase}

theorem partitionLine_inj {name' : Bytes} (hname : nameAccepted name = true) (hname' : nameAccepted name' = true)
    {phase' : Phase} {count' size' : Nat}
    (h : partitionLine name phase count size = partitionLine name' phase' count' size') :
    name = name' ∧ phase.label = phase'.label := by
  obtain ⟨h₁, h₂, h₃⟩ := extractWords_partitionLine hname phase count size
  obtain ⟨h₁', h₂', h₃'⟩ := extractWords_partitionLine hname' phase' count' size'
  rw [h, h₁', Option.some_inj, Prod.mk.injEq, cons_inj_right] at h₁
  rw [← h₁.2, h₂', Option.some_inj, Prod.mk.injEq, cons_inj_right] at h₂
  rw [← h₂.2, h₃', Option.some_inj, Prod.mk.injEq] at h₃
  exact ⟨h₂.1.symm, h₃.1.symm⟩

theorem nextPhase_label {done total : UInt64} (h : phase = .written → done = total) :
    nextPhase phase.label done total = some (payloadPhase phase) := by
  cases phase with
  | written =>
    have hne : (Phase.written).label ≠ ascii "writing" := by decide
    rw [nextPhase, if_neg hne, if_pos ⟨rfl, h rfl⟩]
    rfl
  | writing | queued | failed => rfl

theorem applyProgress_label {i : Nat} {target : DirectTarget} {progress : Progress}
    (hfind : targets.findIdx? (fun t => t.name = target.name) = some i) (htarget : targets[i]? = some target)
    (hprevious : progress.previous.length = targets.length) (hphases : progress.phases.length = targets.length)
    (hcount : count ≤ target.bytes.toNat) (hbefore : (progress.previous.getD i 0).toNat ≤ count)
    (hfull : phase = .written → count = target.bytes.toNat)
    (hstay : progress.phases.getD i .queued = .written ∨ progress.phases.getD i .queued = .failed →
      progress.phases.getD i .queued = payloadPhase phase) :
    applyProgress targets target.name phase.label (UInt64.ofNat count) (UInt64.ofNat target.bytes.toNat) progress =
      some ⟨progress.previous.set i (UInt64.ofNat count), progress.phases.set i (payloadPhase phase),
        progress.calls ++ [(i, payloadPhase phase, UInt64.ofNat count)]⟩ := by
  have hsmall : (UInt64.ofNat count).toNat = count :=
    toNat_ofNat_of_lt (hcount.trans_lt target.bytes.toNat_lt)
  have hok : ¬ (progress.previous.length ≠ targets.length ∨ progress.phases.length ≠ targets.length ∨
      target.bytes ≠ target.bytes ∨ UInt64.ofNat count > target.bytes ∨
      UInt64.ofNat count < progress.previous.getD i 0) := by
    rw [gt_iff_lt, lt_iff_toNat_lt, lt_iff_toNat_lt, hsmall]
    simp only [hprevious, hphases, ne_eq, not_true_eq_false, false_or, not_or]
    omega
  have hnext : nextPhase phase.label (UInt64.ofNat count) target.bytes = some (payloadPhase phase) := by
    apply nextPhase_label
    intro hphase
    rw [hfull hphase, UInt64.ofNat_toNat]
  have hkeep : ¬ ((progress.phases.getD i .queued = .written ∨ progress.phases.getD i .queued = .failed) ∧
      progress.phases.getD i .queued ≠ payloadPhase phase) := fun h => h.2 (hstay h.1)
  simp only [applyProgress, hfind, htarget, Option.bind_eq_bind, Option.bind_some, UInt64.ofNat_toNat, if_neg hok,
    hnext, if_neg hkeep]

theorem partitionLine_eq (name : Bytes) (phase : Phase) (count size : Nat) : partitionLine name phase count size =
      ascii "AERA_PARTITION " ++
        (name ++ 32 :: (phase.label ++ 32 :: (decimal count ++ 32 :: decimal size))) := by
  have hmarker : ascii "AERA_PARTITION " = ascii "AERA_PARTITION" ++ [32] := by decide
  rw [partitionLine, hmarker, append_assoc, singleton_append]

theorem isPartition_partitionLine (name : Bytes) (phase : Phase) (count size : Nat) :
    isPartition (partitionLine name phase count size) = true := by
  rw [partitionLine_eq, isPartition, isPrefixOf_iff_prefix]
  exact prefix_append _ _

theorem clean_partitionLine (hname : nameAccepted name = true) (phase : Phase)
    (hcount : count < 2 ^ 64) (hsize : size < 2 ^ 64) : Clean (partitionLine name phase count size) := by
  have hnewline : ∀ w : Bytes, (∀ c ∈ w, isSpace c = false) → (10 : UInt8) ∉ w := by
    intro w hw hmem
    exact absurd (hw 10 hmem) (by decide)
  have hlength : name.length ≤ 128 := by
    simp only [nameAccepted, Bool.and_eq_true, decide_eq_true_eq] at hname
    exact hname.1.2
  have hdigits : ∀ n : Nat, n < 2 ^ 64 → (decimal n).length ≤ 20 := by
    intro n hn
    exact length_decimal_le (by decide) (hn.trans (by decide))
  have hlabel : phase.label.length ≤ 7 := by cases phase <;> decide
  constructor
  · rw [partitionLine_eq]
    simp only [mem_append, mem_cons, not_or]
    have h₁ := hnewline name (not_space_name hname).2
    have h₂ := hnewline phase.label (not_space_label phase).2
    have h₃ : ∀ n, (10 : UInt8) ∉ decimal n := fun n => hnewline _ fun c hc => isSpace_of_mem_decimal hc
    exact ⟨by decide, h₁, by decide, h₂, by decide, h₃ count, by decide, h₃ size⟩
  · have h₁ := hdigits count hcount
    have h₂ := hdigits size hsize
    have h₃ : (ascii "AERA_PARTITION ").length = 15 := by decide
    rw [partitionLine_eq]
    simp only [length_append, length_cons, h₃]
    omega
  · exact .inl (isPartition_partitionLine name phase count size)

theorem clean_progressLine {done : Nat} (hdone : done < 2 ^ 128) (hsize : size < 2 ^ 64) :
    isPartition (progressLine done size) = false ∧ Clean (progressLine done size) := by
  have hpref : progressLine done size = ascii "AERA_PROGRESS " ++ (decimal done ++ 32 :: decimal size) := by
    have hmarker : ascii "AERA_PROGRESS " = ascii "AERA_PROGRESS" ++ [32] := by decide
    rw [progressLine, hmarker, append_assoc, singleton_append]
  have hnewline : ∀ n, (10 : UInt8) ∉ decimal n := by
    intro n hmem
    exact absurd (isSpace_of_mem_decimal hmem) (by decide)
  refine ⟨by rw [hpref]; rfl, ?_, ?_, .inr ⟨by rw [hpref]; rfl, ?_⟩⟩
  · rw [hpref]
    simp only [mem_append, mem_cons, not_or]
    exact ⟨by decide, hnewline done, by decide, hnewline size⟩
  · have h₁ : (decimal done).length ≤ 39 := length_decimal_le (by decide) (hdone.trans (by decide))
    have h₂ : (decimal size).length ≤ 20 := length_decimal_le (by decide) (hsize.trans (by decide))
    have h₃ : (ascii "AERA_PROGRESS ").length = 14 := by decide
    rw [hpref]
    simp only [length_append, length_cons, h₃]
    omega
  · rw [hpref, isProgress, isPrefixOf_iff_prefix]
    exact prefix_append _ _

end AeraRecovery.Payload.DirectProgress
