import AeraRecovery.Payload.BatchImage
import AeraRecovery.Payload.DirectProgress

namespace AeraRecovery.Payload.Reports

open Lib Steps Text Direct Extraction WriteOperation WriteBatch DirectProgress List Nat

variable {b : Batch} {sizes : List UInt64} {s s' : State} {a : Action} {targets : List DirectTarget} {pr : Progress}
  {target target' : Nat → Target}

structure Later (t t' : Target) : Prop where
  done : t.done ≤ t'.done
  written : t.phase = .written → t'.phase = .written
  failed : t.phase = .failed → t'.phase = .failed

theorem Later.refl (t : Target) : Later t t := ⟨le_rfl, id, id⟩

variable {i : Nat}

theorem exists_file (hb : Admitted b sizes) (hi : i < b.parts.length) : ∃ file, b.files[i]? = some file :=
  ⟨_, getElem?_eq_getElem (hb.files ▸ hi)⟩

theorem step_later (hb : Admitted b sizes) (hs : Sound b s) (h : step b s a = some s')
    (hi : i < b.parts.length) : Later (s.target i) (s'.target i) := by
  obtain ⟨file, hfile⟩ := exists_file hb hi
  rcases step_view hb.objects hfile h with hview | ⟨k, op, t', l', pc', hop, hmove, hview⟩
  · have heq : s'.target i = s.target i := congrArg View.target hview
    rw [heq]
    exact Later.refl _
  · have heq : s'.target i = t' := congrArg View.target hview
    obtain ⟨hk, -⟩ := List.getElem?_eq_some_iff.mp hop
    obtain ⟨hwritten, hfailed⟩ := (hs i _ hfile).phase_stable hk hmove
    rw [heq]
    exact ⟨hmove.done_le, hwritten, hfailed⟩

variable {p : PartitionUpdate}

theorem totalBytes_eq (source : Source) (hvalid : validate p source.block source.data = .ok p.size) :
    totalBytes source.block p.operations = p.size.toNat := by
  have hsum : ∀ ops : List InstallOperation,
      totalBytes source.block ops = (ops.map fun op => (fileOffsets source.block op.dstExtents).length).sum := by
    intro ops
    induction ops with
    | nil => rfl
    | cons op ops ih =>
      rw [totalBytes, length_cons, Finset.sum_range_succ', map_cons, sum_cons, ← ih, add_comm]
      rfl
  have htotal := (tiles_of_valid hvalid).length (zero_le _)
  rw [zero_add, PartitionUpdate.bytes, map_flatMap, flatMap_def, sum_flatten, map_map] at htotal
  rw [hsum, ← htotal]
  congr 1
  refine map_congr_left fun op hop => ?_
  rw [length_fileOffsets hvalid hop]
  exact (sum_bytes_eq_span source.block.toNat op.dstExtents).symm

theorem counts_of_sound (hb : Admitted b sizes) (hs : Sound b s) (hp : b.parts[i]? = some p) :
    (s.target i).done ≤ p.size.toNat ∧ ((s.target i).phase = .written → (s.target i).done = p.size.toNat) := by
  obtain ⟨hi, -⟩ := List.getElem?_eq_some_iff.mp hp
  obtain ⟨file, hfile⟩ := exists_file hb hi
  have hview := hs i file hfile
  have htotal := totalBytes_eq b.toSource (hb.valid p (mem_of_getElem? hp))
  rw [operations_eq hp] at hview
  have hbounded := hview.bounded
  rw [htotal] at hbounded
  constructor
  · exact (le_add_right _ _).trans hbounded
  · intro hphase
    rw [← htotal]
    exact (hview.of_written hphase).2.2

/-- The recovery counts no more than the writer, and has heard no end of a target that the writer did not come to. -/
structure Agrees (b : Batch) (target : Nat → Target) (pr : Progress) : Prop where
  previous : pr.previous.length = b.parts.length
  phases : pr.phases.length = b.parts.length
  counts : ∀ i < b.parts.length, (pr.previous.getD i 0).toNat ≤ (target i).done
  written : ∀ i < b.parts.length, pr.phases.getD i .queued = .written → (target i).phase = .written
  failed : ∀ i < b.parts.length, pr.phases.getD i .queued = .failed → (target i).phase = .failed

/-- What a report has loaded still holds, and covers what the recovery has heard. -/
def ScanOk (b : Batch) (target : Nat → Target) (pr : Progress) : Scan → Prop
  | .phase i total => i ≤ b.parts.length ∧ total ≤ i * 2 ^ 64
  | .count i total state =>
    i < b.parts.length ∧ total ≤ i * 2 ^ 64 ∧ (state = .written → (target i).phase = .written) ∧
      (state = .failed → (target i).phase = .failed) ∧ (pr.phases.getD i .queued = .written → state = .written) ∧
      (pr.phases.getD i .queued = .failed → state = .failed)

def ScanEnds (pr : Progress) : Scan → Prop
  | .phase i _ => ∀ j < i, pr.phases.getD j .queued = .written
  | .count i _ state => state = .written ∧ ∀ j < i, pr.phases.getD j .queued = .written

def LineOk (b : Batch) (target : Nat → Target) (line : Bytes) : Prop :=
  (∃ total size, total < 2 ^ 128 ∧ size < 2 ^ 64 ∧ line = progressLine total size) ∨
    ∃ (i : Nat) (p : PartitionUpdate) (phase : Phase) (count : Nat), b.parts[i]? = some p ∧ count < 2 ^ 64 ∧
      line = partitionLine p.partitionName phase count p.size.toNat ∧
      (phase = .written → (target i).phase = .written)

section

variable (hlater : ∀ i < b.parts.length, Later (target i) (target' i))

include hlater

theorem Agrees.later (h : Agrees b target pr) : Agrees b target' pr where
  previous := h.previous
  phases := h.phases
  counts i hi := (h.counts i hi).trans (hlater i hi).done
  written i hi hw := (hlater i hi).written (h.written i hi hw)
  failed i hi hf := (hlater i hi).failed (h.failed i hi hf)

theorem ScanOk.later {scan : Scan} (h : ScanOk b target pr scan) : ScanOk b target' pr scan := by
  cases scan with
  | phase i total => exact h
  | count i total state =>
    obtain ⟨hi, htotal, hwritten, hfailed, hheard⟩ := h
    exact ⟨hi, htotal, fun hw => (hlater i hi).written (hwritten hw), fun hf => (hlater i hi).failed (hfailed hf),
      hheard⟩

theorem LineOk.later {line : Bytes} (h : LineOk b target line) : LineOk b target' line := by
  rcases h with h | ⟨i, p, phase, count, hp, hcount, hline, hwritten⟩
  · exact .inl h
  · obtain ⟨hi, -⟩ := List.getElem?_eq_some_iff.mp hp
    exact .inr ⟨i, p, phase, count, hp, hcount, hline, fun hw => (hlater i hi).written (hwritten hw)⟩

end

structure Matches (b : Batch) (sizes : List UInt64) (targets : List DirectTarget) : Prop where
  names : targets.map DirectTarget.name = b.parts.map (·.partitionName)
  bytes : targets.map DirectTarget.bytes = sizes

theorem Matches.length (ht : Matches b sizes targets) : targets.length = b.parts.length := by
  rw [← length_map DirectTarget.name, ht.names, length_map]

section

variable (hb : Admitted b sizes) (ht : Matches b sizes targets)

include hb ht

theorem Matches.index {i : Nat} (hp : b.parts[i]? = some p) : targets[i]? = some ⟨p.partitionName, p.size⟩ ∧
      targets.findIdx? (fun t => t.name = p.partitionName) = some i ∧ targets.length = b.parts.length := by
  have hlen := ht.length
  have hname : ∀ j : Nat, (targets[j]?).map DirectTarget.name = (b.parts[j]?).map (·.partitionName) := by
    intro j
    rw [← getElem?_map, ← getElem?_map, ht.names]
  obtain ⟨hi, rfl⟩ := List.getElem?_eq_some_iff.mp hp
  have htarget : targets[i]? = some (targets.get ⟨i, hlen ▸ hi⟩) := getElem?_eq_getElem _
  have hbytes := congrArg (fun l : List UInt64 => l[i]?) (ht.bytes.trans hb.sizes)
  have hnames := hname i
  simp only [getElem?_map, htarget, hp, Option.map_some, Option.some_inj] at hbytes hnames
  refine ⟨?_, ?_, hlen⟩
  · rw [htarget, ← hnames, ← hbytes]
  · rw [findIdx?_eq_some_iff_getElem]
    refine ⟨hlen ▸ hi, decide_eq_true hnames, fun j hj hsame => ?_⟩
    have hjlen : j < b.parts.length := hj.trans hi
    have hj' := hname j
    rw [getElem?_eq_getElem (hlen ▸ hjlen), getElem?_eq_getElem hjlen, Option.map_some, Option.map_some,
      Option.some_inj] at hj'
    rw [decide_eq_true_eq, hj'] at hsame
    exact absurd (index_eq_of_key hb.names (getElem?_eq_getElem hjlen) hp hsame) hj.ne

omit ht in
theorem entries_getD (hsizes : s.sizes = sizes) {i : Nat} (hp : b.parts[i]? = some p) :
    (entries b s).getD i ([], 0) = (p.partitionName, p.size) ∧ (entries b s).length = b.parts.length := by
  rw [entries, hsizes, hb.sizes, zip_map', length_map]
  refine ⟨?_, rfl⟩
  rw [getD_eq_getElem?_getD, getElem?_map, hp]
  rfl

theorem accepts_partition (hs : Sound b s) (hagrees : Agrees b s.target pr) {i total : Nat} {state : Phase}
    (hp : b.parts[i]? = some p) (hscan : ScanOk b s.target pr (.count i total state)) (hstate : state ≠ .queued) :
    ∃ pr', parseDirectProgress targets pr
        (partitionLine p.partitionName state (s.target i).done p.size.toNat) = some pr' ∧
      Agrees b s.target pr' ∧ pr'.phases = pr.phases.set i (payloadPhase state) := by
  obtain ⟨hi, -, hwritten, hfailed, hheardWritten, hheardFailed⟩ := hscan
  obtain ⟨htarget, hfind, hlen⟩ := Matches.index hb ht hp
  obtain ⟨hle, hfull⟩ := counts_of_sound hb hs hp
  have hname := hb.accepted p (mem_of_getElem? hp)
  have hsize := p.size.toNat_lt
  have hstay : pr.phases.getD i .queued = .written ∨ pr.phases.getD i .queued = .failed →
      pr.phases.getD i .queued = payloadPhase state := by
    rintro (h | h)
    · rw [h, hheardWritten h]
      rfl
    · rw [h, hheardFailed h]
      rfl
  have happly := applyProgress_label hfind htarget (hagrees.previous.trans hlen.symm)
    (hagrees.phases.trans hlen.symm) hle (hagrees.counts i hi) (fun h => hfull (hwritten h)) hstay
  refine ⟨_, (parse_partitionLine hname state (hle.trans_lt hsize) hsize pr).trans happly, ?_, rfl⟩
  have hsmall : (UInt64.ofNat (s.target i).done).toNat = (s.target i).done :=
    UInt64.toNat_ofNat_of_lt (hle.trans_lt hsize)
  have hget : ∀ j, (pr.phases.set i (payloadPhase state)).getD j .queued =
      if i = j then payloadPhase state else pr.phases.getD j .queued := by
    intro j
    rw [getD_eq_getElem?_getD, getElem?_set, getD_eq_getElem?_getD]
    split_ifs with hij hlt
    · rfl
    · exact absurd (hagrees.phases ▸ hi) hlt
    · rfl
  constructor
  · rw [length_set, hagrees.previous]
  · rw [length_set, hagrees.phases]
  · intro j hj
    rw [getD_eq_getElem?_getD, getElem?_set]
    split_ifs with hij hlt
    · subst hij
      rw [Option.getD_some, hsmall]
    · exact absurd (hagrees.previous ▸ hi) hlt
    · rw [← getD_eq_getElem?_getD]
      exact hagrees.counts j hj
  · intro j hj hphase
    rw [hget] at hphase
    split_ifs at hphase with hij
    · subst hij
      cases state with
      | written => exact hwritten rfl
      | queued | writing | failed => cases hphase
    · exact hagrees.written j hj hphase
  · intro j hj hphase
    rw [hget] at hphase
    split_ifs at hphase with hij
    · subst hij
      cases state with
      | queued => exact absurd rfl hstate
      | failed => exact hfailed rfl
      | writing | written => cases hphase
    · exact hagrees.failed j hj hphase

theorem scan_step (hs : Sound b s) (hsizes : s.sizes = sizes) (hagrees : Agrees b s.target pr) {scan : Scan}
    (hscan : ScanOk b s.target pr scan) {line : Option Bytes} {next : Option Scan}
    (h : scan.step (entries b s) s.totalSize s.target = (line, next)) :
    ∃ pr', (line.toList.filter isPartition).foldlM (parseDirectProgress targets) pr = some pr' ∧ Agrees b s.target pr' ∧
      (∀ l, line = some l → LineOk b s.target l) ∧ (∀ scan', next = some scan' → ScanOk b s.target pr' scan') ∧
      ((∀ i < b.parts.length, (s.target i).phase = .written) → ScanEnds pr scan →
        (∀ scan', next = some scan' → ScanEnds pr' scan') ∧
          (next = none → ∀ i < b.parts.length, pr'.phases.getD i .queued = .written)) := by
  have hlen : (entries b s).length = b.parts.length := by
    rw [entries, hsizes, hb.sizes, zip_map', length_map]
  cases scan with
  | phase i total =>
    obtain ⟨hi, htotal⟩ := hscan
    rw [Scan.step, hlen] at h
    split_ifs at h with hlt
    · cases h
      refine ⟨pr, rfl, hagrees, nofun, ?_, ?_⟩
      · rintro _ ⟨⟩
        exact ⟨hlt, htotal, id, id, hagrees.written i hlt, hagrees.failed i hlt⟩
      · intro hall hends
        refine ⟨?_, nofun⟩
        rintro _ ⟨⟩
        exact ⟨hall i hlt, hends⟩
    · cases h
      have hbound : total < 2 ^ 128 := by
        have hcount := hb.count
        omega
      obtain ⟨hother, -⟩ := clean_progressLine hbound s.totalSize.toNat_lt
      refine ⟨pr, ?_, hagrees, ?_, nofun, ?_⟩
      · rw [Option.toList_some, filter_cons_of_neg (by rw [hother]; exact Bool.false_ne_true)]
        rfl
      · rintro _ ⟨⟩
        exact .inl ⟨total, _, hbound, s.totalSize.toNat_lt, rfl⟩
      · exact fun _ hends => ⟨nofun, fun _ j hj => hends j (by omega)⟩
  | count i total state =>
    have hi := hscan.1
    obtain ⟨p, hp⟩ : ∃ p, b.parts[i]? = some p := ⟨_, getElem?_eq_getElem hi⟩
    obtain ⟨hle, -⟩ := counts_of_sound hb hs hp
    have hsize := p.size.toNat_lt
    have hnext : i + 1 ≤ b.parts.length ∧ total + (s.target i).done ≤ (i + 1) * 2 ^ 64 := by
      have := hscan.2.1
      omega
    rw [Scan.step, (entries_getD hb hsizes hp).1] at h
    by_cases hstate : state = .queued
    · rw [if_pos hstate] at h
      cases h
      refine ⟨pr, rfl, hagrees, nofun, ?_, ?_⟩
      · rintro _ ⟨⟩
        exact hnext
      · intro _ hends
        cases hstate.symm.trans hends.1
    · rw [if_neg hstate] at h
      cases h
      obtain ⟨pr', hparse, hagrees', hphases⟩ := accepts_partition hb ht hs hagrees hp hscan hstate
      refine ⟨pr', ?_, hagrees', ?_, ?_, ?_⟩
      · rw [Option.toList_some, filter_cons_of_pos (isPartition_partitionLine _ _ _ _)]
        exact Option.bind_eq_some_iff.mpr ⟨pr', hparse, rfl⟩
      · rintro _ ⟨⟩
        exact .inr ⟨i, p, state, _, hp, hle.trans_lt hsize, rfl, hscan.2.2.1⟩
      · rintro _ ⟨⟩
        exact hnext
      · rintro - ⟨rfl, hends⟩
        refine ⟨?_, nofun⟩
        rintro _ ⟨⟩ j hj
        rw [hphases, getD_eq_getElem?_getD, getElem?_set]
        split_ifs with hij hlt
        · rfl
        · exact absurd (hagrees.phases ▸ hi) hlt
        · rw [← getD_eq_getElem?_getD]
          exact hends j (by omega)

end

structure Reported (b : Batch) (targets : List DirectTarget) (s : State) (pr : Progress) : Prop where
  accepted : (s.output.filter isPartition).foldlM (parseDirectProgress targets) (.fresh targets) = some pr
  agrees : Agrees b s.target pr
  lines : ∀ line ∈ s.output, LineOk b s.target line
  reporter : ∀ scan, s.reporter = .scan scan → ScanOk b s.target pr scan
  main : ∀ scan r, s.main = .report scan r → ScanOk b s.target pr scan
  exclusive : s.reporter = .top ∨ (∃ scan, s.reporter = .scan scan) → s.main = .install ∨ ∃ r, s.main = .join r
  ends : ∀ scan, s.main = .report scan (.ok ()) → ScanEnds pr scan
  ended : s.main = .returned (.ok ()) → ∀ i < b.parts.length, pr.phases.getD i .queued = .written

theorem Reported.later (hr : Reported b targets s pr)
    (hlater : ∀ i < b.parts.length, Later (s.target i) (s'.target i)) (houtput : s'.output = s.output)
    (hreporter : s'.reporter = s.reporter) (hmain : s'.main = s.main) : Reported b targets s' pr := by
  constructor
  · rw [houtput]
    exact hr.accepted
  · exact hr.agrees.later hlater
  · rw [houtput]
    exact fun line hline => (hr.lines line hline).later hlater
  · rw [hreporter]
    exact fun scan hscan => (hr.reporter scan hscan).later hlater
  · rw [hmain]
    exact fun scan r hscan => (hr.main scan r hscan).later hlater
  · rw [hreporter, hmain]
    exact hr.exclusive
  · rw [hmain]
    exact hr.ends
  · rw [hmain]
    exact hr.ended

theorem accepted_append {out : List Bytes} {line : Option Bytes} {pr' : Progress}
    (h : (out.filter isPartition).foldlM (parseDirectProgress targets) (.fresh targets) = some pr)
    (h' : (line.toList.filter isPartition).foldlM (parseDirectProgress targets) pr = some pr') :
    ((out ++ line.toList).filter isPartition).foldlM (parseDirectProgress targets) (.fresh targets) = some pr' := by
  rw [filter_append, foldlM_append]
  exact Option.bind_eq_some_iff.mpr ⟨pr, h, h'⟩

theorem lines_append {out : List Bytes} {line : Option Bytes} (h : ∀ l ∈ out, LineOk b target l)
    (h' : ∀ l, line = some l → LineOk b target l) : ∀ l ∈ out ++ line.toList, LineOk b target l := by
  intro l hl
  rcases mem_append.mp hl with hl | hl
  · exact h l hl
  · exact h' l (Option.mem_toList.mp hl)

section

variable (hb : Admitted b sizes) (ht : Matches b sizes targets) (hs : Sound b s) (hp : Pool b sizes s)
  (hr : Reported b targets s pr)

include hb ht hs hp hr

theorem reported_reporter (h : ReporterMove b s s') : ∃ pr', Reported b targets s' pr' := by
  cases h with
  | exited hreporter hstop | panicked scan hreporter => exact ⟨pr, { hr with reporter := nofun, exclusive := nofun }⟩
  | began hreporter =>
    refine ⟨pr, { hr with reporter := ?_, exclusive := fun _ => hr.exclusive (.inl hreporter) }⟩
    rintro _ ⟨⟩
    exact ⟨zero_le _, zero_le _⟩
  | reported scan line next hreporter hscan =>
    have hmain := hr.exclusive (.inr ⟨scan, hreporter⟩)
    have hsizes : s.sizes = sizes := by
      refine hp.recorded.resolve_left fun hcheck => ?_
      rw [hcheck] at hmain
      rcases hmain with h | ⟨r, h⟩ <;> cases h
    obtain ⟨pr', hfold, hagrees, hline, hnext, -⟩ :=
      scan_step hb ht hs hsizes hr.agrees (hr.reporter scan hreporter) hscan
    refine ⟨pr', accepted_append hr.accepted hfold, hagrees, lines_append hr.lines hline, ?_, ?_, fun _ => hmain,
      ?_, ?_⟩
    · intro scan' h'
      cases next with
      | none => cases h'
      | some scan'' =>
        cases h'
        exact hnext _ rfl
    -- the calling thread is not at its report yet
    · rcases hmain with h | ⟨r, h⟩ <;> exact fun _ _ h' => nomatch h.symm.trans h'
    · rcases hmain with h | ⟨r, h⟩ <;> exact fun _ h' => nomatch h.symm.trans h'
    · rcases hmain with h | ⟨r, h⟩ <;> exact fun h' => nomatch h.symm.trans h'

theorem reported_main {totalSize : UInt64} (hprecheck : precheck b = .ok (sizes, totalSize)) (h : MainMove b s s')
    (hall : s.main.result = some (.ok ()) → ∀ i < b.parts.length, (s.target i).phase = .written) :
    ∃ pr', Reported b targets s' pr' := by
  have hquiet : ∀ m, (s.reporter = .top ∨ (∃ scan, s.reporter = .scan scan)) → s.main = m →
      m = .install ∨ ∃ r, m = .join r := fun m hactive hmain => hmain ▸ hr.exclusive hactive
  cases h with
  | rejected message hmain hprecheck' =>
    rw [hprecheck] at hprecheck'
    cases hprecheck'
  | admitted sizes' totalSize' hmain hprecheck' | built hmain | unbuilt hmain | unspawned hmain | panicked scan r hmain =>
    refine ⟨pr, hr.accepted, hr.agrees, hr.lines, hr.reporter, nofun, fun hactive => ?_, nofun, nofun⟩
    rcases hquiet _ hactive hmain with h | ⟨r, h⟩ <;> cases h
  | spawned hmain =>
    exact ⟨pr, hr.accepted, hr.agrees, hr.lines, nofun, nofun, fun _ => .inl rfl, nofun, nofun⟩
  | collected hmain hover =>
    exact ⟨pr, hr.accepted, hr.agrees, hr.lines, hr.reporter, nofun, fun _ => .inr ⟨_, rfl⟩, nofun, nofun⟩
  | lost r hmain hreporter =>
    refine ⟨pr, hr.accepted, hr.agrees, hr.lines, hr.reporter, nofun, ?_, nofun, nofun⟩
    rw [hreporter]
    rintro (h | ⟨scan, h⟩) <;> cases h
  | joined r hmain hreporter =>
    refine ⟨pr, hr.accepted, hr.agrees, hr.lines, hr.reporter, ?_, ?_, ?_, nofun⟩
    · rintro _ _ ⟨⟩
      exact ⟨zero_le _, zero_le _⟩
    · change s.reporter = .top ∨ (∃ scan, s.reporter = .scan scan) → _
      rw [hreporter]
      rintro (h | ⟨scan, h⟩) <;> cases h
    · rintro _ ⟨⟩ j hj
      cases hj
  | reported scan r line next hmain hscan =>
    have hsizes : s.sizes = sizes := hp.recorded.resolve_left (hmain ▸ nofun)
    obtain ⟨pr', hfold, hagrees, hline, hnext, hends⟩ :=
      scan_step hb ht hs hsizes hr.agrees (hr.main scan r hmain) hscan
    have hidle : ¬ (s.reporter = .top ∨ ∃ scan, s.reporter = .scan scan) := by
      intro hactive
      rcases hquiet _ hactive hmain with h | ⟨r, h⟩ <;> cases h
    have hwritten : r = .ok () → ∀ i < b.parts.length, (s.target i).phase = .written := by
      rintro rfl
      exact hall (by rw [hmain]; rfl)
    have hbefore : r = .ok () → ScanEnds pr scan := by
      rintro rfl
      exact hr.ends scan hmain
    refine ⟨pr', accepted_append hr.accepted hfold, hagrees, lines_append hr.lines hline,
      fun scan' h' => absurd (.inr ⟨scan', h'⟩) hidle, ?_, fun hactive => absurd hactive hidle, ?_, ?_⟩
    · cases next with
      | none => exact nofun
      | some scan' =>
        rintro _ _ ⟨⟩
        exact hnext _ rfl
    · cases next with
      | none => exact nofun
      | some scan' =>
        rintro _ ⟨⟩
        exact (hends (hwritten rfl) (hbefore rfl)).1 _ rfl
    · cases next with
      | none =>
        rintro ⟨⟩
        exact (hends (hwritten rfl) (hbefore rfl)).2 rfl
      | some scan' => exact nofun

theorem reported_step {totalSize : UInt64} (hprecheck : precheck b = .ok (sizes, totalSize)) (h : step b s a = some s') :
    ∃ pr', Reported b targets s' pr' := by
  have hlater : ∀ i < b.parts.length, Later (s.target i) (s'.target i) := fun i hi => step_later hb hs h hi
  cases a with
  | start i k =>
    obtain ⟨-, -, rfl⟩ := startStep_spec h
    exact ⟨pr, hr.later hlater rfl rfl rfl⟩
  | skip i k =>
    obtain ⟨-, -, rfl, -⟩ := skipStep_spec h
    exact ⟨pr, hr.later hlater rfl rfl rfl⟩
  | task i k outcome =>
    obtain ⟨file, op, memory, pc, -, -, -, -, rfl⟩ := runTask_spec h
    exact ⟨pr, hr.later hlater rfl rfl rfl⟩
  | reporter printed => exact reported_reporter hb ht hs hp hr (reporterStep_move h)
  | main succeeded =>
    refine reported_main hb ht hs hp hr hprecheck (mainStep_move h) fun hresult i hi => ?_
    obtain ⟨file, hfile⟩ := exists_file hb hi
    refine (hs i file hfile).written_of_finished fun k hk => hp.finished hresult (i, k) (mem_tasks.mpr ⟨?_, hk⟩)
    rwa [hb.sizes, length_map]

end

theorem reported_start (ht : targets.length = b.parts.length) : Reported b targets (start b) (.fresh targets) := by
  refine ⟨rfl, ?_, nofun, nofun, nofun, ?_, nofun, nofun⟩
  · constructor
    · rw [Progress.fresh, length_replicate, ht]
    · rw [Progress.fresh, length_replicate, ht]
    · intro i hi
      have hlt : i < targets.length := by rwa [ht]
      simp only [Progress.fresh, getD_replicate _ hlt]
      exact zero_le _
    · intro i hi h
      have hlt : i < targets.length := by rwa [ht]
      simp only [Progress.fresh, getD_replicate _ hlt] at h
      cases h
    · intro i hi h
      have hlt : i < targets.length := by rwa [ht]
      simp only [Progress.fresh, getD_replicate _ hlt] at h
      cases h
  · rintro (h | ⟨scan, h⟩) <;> cases h

/-- Whatever order the threads take, the recovery has accepted the lines that were printed. -/
theorem reported_of_run {totalSize : UInt64} (hprecheck : precheck b = .ok (sizes, totalSize))
    (ht : Matches b sizes targets) {actions : List Action} (h : run b actions (start b) = some s) :
    ∃ pr, Reported b targets s pr := by
  have hb := precheck_ok hprecheck
  have hlen := ht.length
  have hall : Sound b s ∧ Pool b sizes s ∧ ∃ pr, Reported b targets s pr := by
    refine run_invariant (I := fun s => Sound b s ∧ Pool b sizes s ∧ ∃ pr, Reported b targets s pr) ?_ ?_ h
    · rintro s a s' ⟨hs, hp, pr, hr⟩ hstep
      exact ⟨hs.step hb.objects hstep, hp.step hprecheck hstep, reported_step hb ht hs hp hr hprecheck hstep⟩
    · have hnone : run b [] (start b) = some (start b) := rfl
      exact ⟨sound_of_run hb hnone, pool_of_run hprecheck hnone, _, reported_start hlen⟩
  exact hall.2.2

theorem LineOk.clean (hb : Admitted b sizes) {line : Bytes} (h : LineOk b target line) : Clean line := by
  rcases h with ⟨total, size, htotal, hsize, rfl⟩ | ⟨i, p, phase, count, hp, hcount, rfl, -⟩
  · exact (clean_progressLine htotal hsize).2
  · exact clean_partitionLine (hb.accepted p (mem_of_getElem? hp)) phase hcount p.size.toNat_lt

theorem LineOk.written (hb : Admitted b sizes) {count size : Nat}
    (hp : b.parts[i]? = some p) (h : LineOk b target (partitionLine p.partitionName .written count size)) :
    (target i).phase = .written := by
  rcases h with ⟨total, size, htotal, hsize, heq⟩ | ⟨j, q, phase, count, hq, hcount, heq, hwritten⟩
  · have hother := (clean_progressLine htotal hsize).1
    rw [← heq, isPartition_partitionLine] at hother
    cases hother
  · obtain ⟨hname, hlabel⟩ := partitionLine_inj (hb.accepted p (mem_of_getElem? hp))
      (hb.accepted q (mem_of_getElem? hq)) heq
    obtain rfl := index_eq_of_key hb.names hp hq hname
    apply hwritten
    cases phase with
    | written => rfl
    | queued | writing | failed =>
      revert hlabel
      decide

/-- The recovery accepts each line about a partition that a batch prints, and when the batch succeeds it has every
target as written. A target is called written only with all its operations stored and flushed, and not once one of them
has failed. -/
theorem writeBatch_reports (b : Batch) (sizes : List UInt64) (totalSize : UInt64) (targets : List DirectTarget)
    (actions : List Action) (s : State) (hprecheck : precheck b = .ok (sizes, totalSize))
    (htargets : Matches b sizes targets) (h : run b actions (start b) = some s) :
    ∃ progress, (s.output.filter isPartition).foldlM (parseDirectProgress targets) (.fresh targets) = some progress ∧
      collect targets (stdout s.output) = { progress } ∧
      (s.main = .returned (.ok ()) → progress.phases = replicate targets.length .written) ∧
      ∀ (i : Nat) (file : File) (p : PartitionUpdate) (count size : Nat), b.files[i]? = some file →
        b.parts[i]? = some p → partitionLine p.partitionName .written count size ∈ s.output →
        Flushed b.toSource p.operations (s.log file.object) ∧
        ∀ before after s₁, actions = before ++ after → run b before (start b) = some s₁ →
          ∀ k < p.operations.length, (s₁.pc i k).failed = false := by
  have hb := precheck_ok hprecheck
  obtain ⟨progress, hr⟩ := reported_of_run hprecheck htargets h
  have hlen := htargets.length
  refine ⟨progress, hr.accepted, collect_clean (fun line hline => (hr.lines line hline).clean hb) hr.accepted, ?_, ?_⟩
  · intro hmain
    have hphases := hr.agrees.phases.trans hlen.symm
    refine eq_replicate_iff.mpr ⟨hphases, fun phase hphase => ?_⟩
    obtain ⟨i, hi, rfl⟩ := mem_iff_getElem.mp hphase
    rw [← hr.ended hmain i (hr.agrees.phases ▸ hi), getD_eq_getElem _ _ hi]
  · intro i file p count size hfile hp hline
    have hview := sound_of_run hb h i file hfile
    rw [operations_eq hp] at hview
    obtain ⟨hflushed, hfinished, -⟩ := hview.of_written ((hr.lines _ hline).written hb hp)
    refine ⟨hflushed, ?_⟩
    rintro before after s₁ rfl hbefore k hk
    rw [run, foldlM_append] at h
    rw [run] at hbefore
    rw [hbefore] at h
    by_contra hfailed
    have hkept : (s.pc i k).failed = true :=
      run_invariant (I := fun s => (s.pc i k).failed = true) (fun _ _ _ hs hstep => step_failed hstep hs)
        (Bool.eq_true_of_not_eq_false hfailed) h
    have hpc : s.pc i k = .finished (.ok ()) := hfinished k hk
    rw [hpc] at hkept
    cases hkept

theorem writeBatch_reports_sampleBatch :
    ∃ s progress, run sampleBatch sampleActions (start sampleBatch) = some s ∧ s.main = .returned (.ok ()) ∧
      collect [⟨Bytes.ascii "boot", 2⟩] (stdout s.output) = { progress } ∧ progress.phases = [.written] := by
  obtain ⟨s, hrun, hmain⟩ : ∃ s, run sampleBatch sampleActions (start sampleBatch) = some s ∧
      s.main = .returned (.ok ()) := ⟨_, rfl, rfl⟩
  obtain ⟨progress, -, hcollect, hwritten, -⟩ := writeBatch_reports sampleBatch [2] 2 [⟨Bytes.ascii "boot", 2⟩]
    sampleActions s rfl ⟨rfl, rfl⟩ hrun
  exact ⟨s, progress, hrun, hmain, hcollect, hwritten hmain⟩

end AeraRecovery.Payload.Reports
