import AeraRecovery.Lib.Bytes

namespace AeraRecovery.Root

open Lib Bytes List Nat

/-- How the calls of one `CopyExact` go. A read or a write of no bytes is one that fails; interrupted calls are made
again and not counted. `cancel` is the flag at each turn of the loop, `cancelled` the flag at the end. -/
structure Copy where
  opensInput : Bool
  opensOutput : Bool
  cancel : Nat → Bool
  read : Nat → Nat
  write : Nat → Nat
  syncs : Bool
  cancelled : Bool
  unlinks : Bool

/-- The bytes that reached the output, in order, and the number of calls of `write`. -/
structure Output where
  written : Bytes := []
  writes : Nat := 0

/-- What becomes of a copy: no output, an output without an input, a copy that was stopped and cleaned up, or a
complete one. -/
inductive Copied
  | unopened
  | created
  | stopped (written : Bytes)
  | complete (written : Bytes)

def Copied.ok : Copied → Bool
  | complete _ => true
  | unopened | created | stopped _ => false

namespace Copy

variable (c : Copy)

def writeBuffer : Nat → Bytes → Output → Bool × Output
  | 0, buffer, out => (buffer.isEmpty, out)
  | fuel + 1, buffer, out =>
    if buffer.isEmpty then (true, out)
    else
      let count := min (c.write out.writes) buffer.length
      if count = 0 then (false, out)
      else writeBuffer fuel (buffer.drop count) ⟨out.written ++ buffer.take count, out.writes + 1⟩

def copyLoop (source : Bytes) (expected : Nat) : Nat → Nat → Nat → Output → Bool × Nat × Output
  | 0, done, _, out => (true, done, out)
  | fuel + 1, done, reads, out =>
    if done < expected ∧ c.cancel reads = false then
      let wanted := min (256 * 1024) (expected - done)
      let count := min (c.read reads) (min wanted (source.length - done))
      if count = 0 then (false, done, out)
      else
        match c.writeBuffer count (source.slice done count) out with
        | (true, out) => copyLoop source expected fuel (done + count) (reads + 1) out
        | (false, out) => (false, done, out)
    else (true, done, out)

def copyExact (source : Bytes) (expected : Nat) : Copied :=
  if c.opensOutput = false then .unopened
  else if c.opensInput = false then .created
  else
    match c.copyLoop source expected expected 0 0 {} with
    | (ok, done, out) =>
      if ok ∧ c.syncs ∧ done = expected ∧ c.cancelled = false then .complete out.written else .stopped out.written

variable {c}

variable {fuel : Nat}

theorem writeBuffer_written {buffer : Bytes} (out : Output) (hfuel : buffer.length ≤ fuel) :
    ∃ m ≤ buffer.length, (c.writeBuffer fuel buffer out).2.written = out.written ++ buffer.take m ∧
      ((c.writeBuffer fuel buffer out).1 = true → m = buffer.length) := by
  induction fuel generalizing buffer out with
  | zero =>
    obtain rfl := length_eq_zero_iff.mp (le_zero.mp hfuel)
    exact ⟨0, le_rfl, (append_nil _).symm, fun _ => rfl⟩
  | succ fuel ih =>
    rw [writeBuffer]
    dsimp only
    split_ifs with hempty hzero
    · rw [List.isEmpty_iff] at hempty
      subst hempty
      exact ⟨0, le_rfl, (append_nil _).symm, fun _ => rfl⟩
    · refine ⟨0, zero_le _, ?_, nofun⟩
      rw [take_zero, append_nil]
    · generalize hcount : min (c.write out.writes) buffer.length = count at hzero ⊢
      have hrest : (buffer.drop count).length ≤ fuel := by
        rw [length_drop]
        omega
      obtain ⟨m, hm, hwritten, hall⟩ := ih ⟨out.written ++ buffer.take count, out.writes + 1⟩ hrest
      rw [length_drop] at hm hall
      refine ⟨count + m, by omega, ?_, fun hok => ?_⟩
      · rw [hwritten, take_add, append_assoc]
      · have := hall hok
        omega

variable {source : Bytes} {expected : Nat}

theorem copyLoop_written {done reads : Nat} {out : Output} (hdone : done ≤ expected)
    (hin : done ≤ source.length) (hout : out.written = source.take done) (hfuel : expected - done ≤ fuel) :
    ∃ m ≤ expected, m ≤ source.length ∧ (c.copyLoop source expected fuel done reads out).2.2.written = source.take m ∧
      ((c.copyLoop source expected fuel done reads out).1 = true →
        (c.copyLoop source expected fuel done reads out).2.1 = m) := by
  induction fuel generalizing done reads out with
  | zero => exact ⟨done, hdone, hin, hout, fun _ => rfl⟩
  | succ fuel ih =>
    rw [copyLoop]
    dsimp only
    split_ifs with hgo hzero
    · exact ⟨done, hdone, hin, hout, by simp⟩
    · generalize hcount : min (c.read reads) _ = count at hzero ⊢
      have hlength : (source.slice done count).length = count := length_slice (by omega)
      obtain ⟨m, hm, hwritten, hall⟩ := writeBuffer_written (c := c) out hlength.le
      rw [hlength] at hm hall
      have htake : source.take done ++ (source.slice done count).take m = source.take (done + m) := by
        rw [slice, take_take, min_eq_left hm, ← take_add]
      rw [hout, htake] at hwritten
      split
      · next out' hbuffer =>
        rw [hbuffer] at hwritten hall
        rw [hall rfl] at hwritten
        exact ih (by omega) (by omega) hwritten (by omega)
      · next out' hbuffer =>
        rw [hbuffer] at hwritten
        exact ⟨done + m, by omega, by omega, hwritten, by simp⟩
    · exact ⟨done, hdone, hin, hout, fun _ => rfl⟩

theorem copyExact_written (c : Copy) (source : Bytes) (expected : Nat) : match c.copyExact source expected with
    | .unopened | .created => True
    | .stopped written => ∃ m ≤ expected, written = source.take m
    | .complete written => written = source.take expected ∧ expected ≤ source.length := by
  have hloop : ∃ m ≤ expected, m ≤ source.length ∧
      (c.copyLoop source expected expected 0 0 {}).2.2.written = source.take m ∧
      ((c.copyLoop source expected expected 0 0 {}).1 = true → (c.copyLoop source expected expected 0 0 {}).2.1 = m) :=
    copyLoop_written (zero_le expected) (zero_le source.length) rfl (le_refl expected)
  obtain ⟨m, hm, hin, hwritten, hdone⟩ := hloop
  rw [copyExact]
  split_ifs with hout hinput
  · trivial
  · trivial
  · obtain ⟨ok, done, out, hrun⟩ : ∃ ok done out, c.copyLoop source expected expected 0 0 {} = (ok, done, out) :=
      ⟨_, _, _, rfl⟩
    simp only [hrun] at hwritten hdone ⊢
    split_ifs with hok
    · rw [hok.2.2.1] at hdone
      obtain rfl := hdone hok.1
      exact ⟨hwritten, hin⟩
    · exact ⟨m, hm, hwritten⟩

theorem copyExact_opened (c : Copy) (source : Bytes) (expected : Nat) : match c.copyExact source expected with
    | .unopened => c.opensOutput = false
    | .created => c.opensOutput = true ∧ c.opensInput = false
    | .stopped _ | .complete _ => c.opensOutput = true ∧ c.opensInput = true := by
  rw [copyExact]
  split_ifs with hout hinput
  · exact hout
  · exact ⟨(Bool.not_eq_false _).mp hout, hinput⟩
  · have hopened := And.intro ((Bool.not_eq_false _).mp hout) ((Bool.not_eq_false _).mp hinput)
    dsimp only
    split_ifs <;> exact hopened

section

variable (c) (length expected : Nat)

/-- The bytes that the first reads deliver from a source of `length` bytes. -/
def offset : Nat → Nat
  | 0 => 0
  | k + 1 => offset k + min (c.read k) (min (min (256 * 1024) (expected - offset k)) (length - offset k))

/-- The bytes that the first writes deliver, and the number of reads that are made before the next one. A write ends
where the buffer ends. -/
def place : Nat → Nat × Nat
  | 0 => (0, 1)
  | w + 1 =>
    let stop := c.offset length expected (place w).2
    let next := (place w).1 + min (c.write w) (stop - (place w).1)
    (next, if next = stop then (place w).2 + 1 else (place w).2)

/-- The schedule lets a copy run through: the source is long enough, and as long as bytes are missing no turn is
cancelled and no read and no write fails. -/
structure Delivers : Prop where
  source : expected ≤ length
  read : ∀ k, c.offset length expected k < expected → c.cancel k = false ∧ c.read k ≠ 0
  write : ∀ w, (c.place length expected w).1 < expected → c.write w ≠ 0
  syncs : c.syncs = true
  cancelled : c.cancelled = false

end

variable {length : Nat}

theorem offset_mono {k k' : Nat} (h : k ≤ k') : c.offset length expected k ≤ c.offset length expected k' :=
  monotone_nat_of_le_succ (fun _ => le_add_right _ _) h

theorem place_mono {w w' : Nat} (h : w ≤ w') : (c.place length expected w).1 ≤ (c.place length expected w').1 :=
  monotone_nat_of_le_succ (f := fun w => (c.place length expected w).1) (fun _ => le_add_right _ _) h

theorem writeBuffer_nil (out : Output) : c.writeBuffer fuel [] out = (true, out) := by
  cases fuel <;> rfl

theorem place_succ {w p k n : Nat} (hplace : c.place length expected w = (p, k))
    (hstop : p + n = c.offset length expected k) :
    c.place length expected (w + 1) = (p + min (c.write w) n, if min (c.write w) n = n then k + 1 else k) := by
  rw [place, hplace]
  dsimp only
  rw [← hstop, Nat.add_sub_cancel_left]
  simp only [Nat.add_left_cancel_iff]

/-- A buffer is written to its end, unless one of the writes for it fails. -/
theorem writeBuffer_cases {buffer : Bytes} {out : Output} {p k : Nat} (hfuel : buffer.length ≤ fuel)
    (hpos : 0 < buffer.length) (hplace : c.place length expected out.writes = (p, k))
    (hrest : p + buffer.length = c.offset length expected k) :
    (∃ out', c.writeBuffer fuel buffer out = (true, out') ∧ out.writes ≤ out'.writes ∧
      c.place length expected out'.writes = (c.offset length expected k, k + 1) ∧
      ∀ w, out.writes ≤ w → w < out'.writes → c.write w ≠ 0) ∨
    ∃ out', c.writeBuffer fuel buffer out = (false, out') ∧
      ∃ w, out.writes ≤ w ∧ (c.place length expected w).1 < c.offset length expected k ∧ c.write w = 0 := by
  induction fuel generalizing buffer out p with
  | zero => omega
  | succ fuel ih =>
    have hnext := place_succ hplace hrest
    rw [writeBuffer, if_neg (by rw [List.isEmpty_iff]; exact ne_nil_of_length_pos hpos)]
    dsimp only
    split_ifs with hzero
    · exact .inr ⟨out, rfl, out.writes, le_rfl, by rw [hplace]; dsimp only; omega, by omega⟩
    · have hle : min (c.write out.writes) buffer.length ≤ buffer.length := min_le_right _ _
      have hlater : ∀ w, out.writes ≤ w → c.write w = 0 → out.writes + 1 ≤ w := by
        intro w hw hfail
        refine lt_of_le_of_ne hw fun heq => ?_
        rw [← heq] at hfail
        omega
      generalize min (c.write out.writes) buffer.length = count at hzero hnext hle ⊢
      by_cases hall : count = buffer.length
      · -- this write ends the buffer
        rw [hall, drop_length, writeBuffer_nil]
        rw [hall, if_pos rfl, hrest] at hnext
        refine .inl ⟨_, rfl, le_succ _, hnext, fun w hw hlt hfail => ?_⟩
        exact absurd (hlater w hw hfail) (not_le.mpr hlt)
      · rw [if_neg hall] at hnext
        have hlength : (buffer.drop count).length = buffer.length - count := length_drop
        rcases @ih (buffer.drop count) ⟨out.written ++ buffer.take count, out.writes + 1⟩ _ (by omega) (by omega) hnext
          (by omega) with
          ⟨out', hrun, hlt, hend, hall⟩ | ⟨out', hrun, w, hw, hfail⟩
        · exact .inl ⟨out', hrun, (le_succ _).trans hlt, hend,
            fun w hw hlt hfail => hall w (hlater w hw hfail) hlt hfail⟩
        · exact .inr ⟨out', hrun, w, (le_succ _).trans hw, hfail⟩

/-- No turn, read or write from the given ones on goes wrong while bytes are missing. -/
def DeliversFrom (c : Copy) (length expected reads writes : Nat) : Prop :=
  (∀ k, reads ≤ k → c.offset length expected k < expected → c.cancel k = false ∧ c.read k ≠ 0) ∧
    ∀ w, writes ≤ w → (c.place length expected w).1 < expected → c.write w ≠ 0

theorem deliversFrom_end {reads writes k : Nat} (hread : expected ≤ c.offset length expected reads)
    (hplace : c.place length expected writes = (expected, k)) : c.DeliversFrom length expected reads writes := by
  refine ⟨fun k hk hlt => absurd (hread.trans (offset_mono hk)) (not_le.mpr hlt), fun w hw hlt => ?_⟩
  have hmono : (c.place length expected writes).1 ≤ (c.place length expected w).1 := place_mono hw
  rw [hplace] at hmono
  exact absurd hmono (not_le.mpr hlt)

theorem copyLoop_complete_iff {done reads : Nat} {out : Output} (hdone : c.offset source.length expected reads = done)
    (hplace : c.place source.length expected out.writes = (done, reads + 1)) (hle : done ≤ expected)
    (hin : done ≤ source.length) (hfuel : expected - done ≤ fuel) :
    ((c.copyLoop source expected fuel done reads out).1 = true ∧
      (c.copyLoop source expected fuel done reads out).2.1 = expected) ↔
    expected ≤ source.length ∧ c.DeliversFrom source.length expected reads out.writes := by
  induction fuel generalizing done reads out with
  | zero =>
    obtain rfl : done = expected := by omega
    exact iff_of_true ⟨rfl, rfl⟩ ⟨hin, deliversFrom_end hdone.ge hplace⟩
  | succ fuel ih =>
    have hnext : c.offset source.length expected (reads + 1) =
        done + min (c.read reads) (min (min (256 * 1024) (expected - done)) (source.length - done)) := by
      rw [offset, hdone]
    rw [copyLoop]
    dsimp only
    split_ifs with hgo hzero
    · refine iff_of_false nofun fun h => ?_
      have := (h.2.1 reads le_rfl (by omega)).2
      have := h.1
      omega
    · generalize hcount : min (c.read reads) _ = count at hzero hnext ⊢
      have hlength : (source.slice done count).length = count := length_slice (by omega)
      rcases writeBuffer_cases hlength.le (by omega) hplace (by rw [hlength, hnext]) with
        ⟨out', hrun, hwrites, hplace', hall⟩ | ⟨out', hrun, w, hw, hlt, hfail⟩
      · rw [hrun]
        dsimp only
        rw [hnext] at hplace'
        rw [ih hnext hplace' (by omega) (by omega) (by omega)]
        refine and_congr_right fun hsource => ⟨fun h => ⟨fun k hk hlt => ?_, fun w hw hlt => ?_⟩, fun h => ?_⟩
        · rcases eq_or_lt_of_le hk with rfl | hk
          · exact ⟨hgo.2, by omega⟩
          · exact h.1 k hk hlt
        · by_cases hbefore : w < out'.writes
          · exact hall w hw hbefore
          · exact h.2 w (not_lt.mp hbefore) hlt
        · exact ⟨fun k hk => h.1 k ((le_succ _).trans hk), fun w hw => h.2 w (hwrites.trans hw)⟩
      · rw [hrun]
        refine iff_of_false nofun fun h => h.2.2 w hw ?_ hfail
        omega
    · by_cases heq : done = expected
      · subst heq
        exact iff_of_true ⟨rfl, rfl⟩ ⟨hin, deliversFrom_end hdone.ge hplace⟩
      · refine iff_of_false (fun h => heq h.2) fun h => hgo ⟨by omega, (h.2.1 reads le_rfl (by omega)).1⟩

/-- A copy succeeds if and only if its files open and the schedule delivers. -/
theorem copyExact_ok_iff (c : Copy) (source : Bytes) (expected : Nat) : (c.copyExact source expected).ok = true ↔
    c.opensOutput = true ∧ c.opensInput = true ∧ c.Delivers source.length expected := by
  have hloop : ((c.copyLoop source expected expected 0 0 {}).1 = true ∧
      (c.copyLoop source expected expected 0 0 {}).2.1 = expected) ↔
      expected ≤ source.length ∧ c.DeliversFrom source.length expected 0 0 :=
    copyLoop_complete_iff rfl rfl (zero_le _) (zero_le _) le_rfl
  rw [copyExact]
  split_ifs with hout hinput
  · simp [Copied.ok, hout]
  · simp [Copied.ok, hinput]
  · rw [Bool.not_eq_false] at hout hinput
    rw [and_iff_right hout, and_iff_right hinput]
    dsimp only
    split_ifs with hok
    · obtain ⟨hsource, hread, hwrite⟩ := hloop.mp ⟨hok.1, hok.2.2.1⟩
      exact iff_of_true rfl ⟨hsource, fun k => hread k (zero_le k), fun w => hwrite w (zero_le w), hok.2.1, hok.2.2.2⟩
    · refine iff_of_false nofun fun h => hok ?_
      have hrun := hloop.mpr ⟨h.source, fun k _ => h.read k, fun w _ => h.write w⟩
      exact ⟨hrun.1, h.syncs, hrun.2, h.cancelled⟩

structure Smooth (c : Copy) : Prop where
  opensInput : c.opensInput = true
  opensOutput : c.opensOutput = true
  cancel : ∀ n, c.cancel n = false
  read : ∀ n, c.read n ≠ 0
  write : ∀ n, c.write n ≠ 0
  syncs : c.syncs = true
  cancelled : c.cancelled = false

theorem Smooth.copyExact (h : c.Smooth) (hsource : expected ≤ source.length) :
    c.copyExact source expected = .complete (source.take expected) := by
  have hok := (copyExact_ok_iff c source expected).mpr ⟨h.opensOutput, h.opensInput, hsource,
    fun k _ => ⟨h.cancel k, h.read k⟩, fun w _ => h.write w, h.syncs, h.cancelled⟩
  have hwritten := copyExact_written c source expected
  cases hcopied : c.copyExact source expected with
  | unopened | created | stopped written =>
    rw [hcopied] at hok
    cases hok
  | complete written =>
    rw [hcopied] at hwritten
    rw [hwritten.1]

end Copy

end AeraRecovery.Root
